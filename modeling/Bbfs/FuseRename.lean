import Bbfs.FuseCreat

/-!
# Renaming in the FUSE variant

`my_rename` looks for the entry in a copy of the parent, and its loop moves on
before it looks. It reads past the end if the entry is the first one, and
otherwise returns 0 with the name changed in the copy alone.
-/

set_option autoImplicit false

namespace Bbfs.FuseRename
open Bbfs.Strings Bbfs.Files Bbfs.FuseCalls Bbfs.FuseTable Bbfs.Runs Bbfs.FuseMkdir
  Bbfs.FuseCreat

/-- The loop of `my_rename` over the copied entries, the iterator on the first
one. It ends on the end of the list only if it is there at once; after the last
entry it reads past the end. -/
def renameLoop (fname newname : Str) : List MyDirent → Option (ℤ × List MyDirent)
  | [] => some (anErr, [])
  | [_] => none
  | d::e::rest =>
    if e.dName = fname then some (ok, d::{ e with dName := newname }::rest)
    else (renameLoop fname newname (e::rest)).map (fun r => (r.1, d::r.2))

/-- The entries changed belong to a copy and are dropped. -/
def myRename (oldpath newpath : Str) (s : Fuse) : Option (ℤ × Fuse) :=
  match getInodeNumber oldpath s with
  | none => some (anErr, s)
  | some _ =>
    let names := dirNames oldpath
    let newNames := dirNames newpath
    if names = [] then none
    else if newNames = [] then none
    else
      match getInodeNumber (creatPath names.dropLast) s with
      | none => some (anErr, s)
      | some iNum =>
        match s.ilist.lookup iNum with
        | none => some (anErr, s)
        | some tempInode =>
          (renameLoop (names.getLastD []) (newNames.getLastD []) tempInode.direntBuf).map
            (fun r => (r.1, s))

def DirCall : FuseCall → Fuse → Prop
  | .mkdir _ _, _ => True
  | .rmdir _, _ => True
  | .chmod _ _, _ => True
  | _, _ => False

instance (c : FuseCall) (s : Fuse) : Decidable (DirCall c s) := by
  induction c using FuseCall.casesOn <;> unfold DirCall <;> infer_instance

def Distinct (t : Table) : Prop := ∀ k, ((dirents t k).map MyDirent.dName).Nodup

structure SameParent (oldpath newpath : Str) : Prop where
  old : dirNames oldpath ≠ []
  new : dirNames newpath ≠ []
  parent : (dirNames oldpath).dropLast = (dirNames newpath).dropLast

/-- `my_rename` returns 0, the new path leads to `n` then and the old one
nowhere, and of all dirents one has changed, in its name. -/
def Renamed (oldpath newpath : Str) (n : ℕ) (s : Fuse) : Prop :=
  ∃ s', myRename oldpath newpath s = some (ok,s') ∧ getInodeNumber newpath s' = some n ∧
    getInodeNumber oldpath s' = none ∧ ∃ q xs d ys, dirents s.ilist q = xs++d::ys ∧
      dirents s'.ilist = Function.update (dirents s.ilist) q
        (xs++{ d with dName := (dirNames newpath).getLastD [] }::ys)

variable {s s' : Fuse} {t t' : Table} {c : FuseCall} {d : MyDirent} {fname newname : Str}
  {xs ys : List MyDirent} {oldpath newpath : Str} {n : ℕ} {rootMode : Mode}

theorem renameLoop_cons (e : MyDirent) : renameLoop fname newname (d::e::xs) =
    if e.dName = fname then some (ok, d::{ e with dName := newname }::xs)
    else (renameLoop fname newname (e::xs)).map (fun r => (r.1, d::r.2)) := rfl

theorem renameLoop_later (hne : xs ≠ []) (hxs : ∀ e ∈ xs, e.dName ≠ fname) (hd : d.dName = fname) :
    renameLoop fname newname (xs++d::ys) =
      some (ok, xs++{ d with dName := newname }::ys) := by
  induction xs with
  | nil => exact absurd rfl hne
  | cons x xs ih =>
    cases xs with
    | nil => rw [List.singleton_append, renameLoop_cons, if_pos hd, List.singleton_append]
    | cons y xs =>
      have hy : y.dName ≠ fname := hxs y (by simp)
      have hrest := ih (List.cons_ne_nil _ _) (fun e he => hxs e (List.mem_cons_of_mem _ he))
      rw [List.cons_append, List.cons_append, renameLoop_cons, if_neg hy, ← List.cons_append, hrest]
      rfl

/-- The first entry is not looked at. -/
theorem renameLoop_first (hxs : ∀ e ∈ xs, e.dName ≠ fname) :
    renameLoop fname newname (d::xs) = none := by
  induction xs generalizing d with
  | nil => rfl
  | cons x xs ih =>
    have hrest : renameLoop fname newname (x::xs) = none :=
      ih (fun e he => hxs e (List.mem_cons_of_mem _ he))
    rw [renameLoop_cons, if_neg (hxs x (by simp)), hrest]
    rfl

theorem nodup_push (h : (xs.map MyDirent.dName).Nodup)
    (hnone : xs.find? (fun e => e.dName == d.dName) = none) :
    ((xs++[d]).map MyDirent.dName).Nodup := by
  rw [List.map_append, List.map_singleton]
  apply h.append (List.nodup_singleton _)
  intro w hw hd
  obtain ⟨e,he,rfl⟩ := List.mem_map.mp hw
  have hdiff := List.find?_eq_none.mp hnone e he
  simp [List.mem_singleton.mp hd] at hdiff

theorem Distinct.insert (h : Distinct t) {k : ℕ} {i : MyInode}
    (hi : (i.direntBuf.map MyDirent.dName).Nodup) : Distinct (t.insert k i) := by
  intro j
  rw [dirents_insert]
  by_cases hj : j = k
  · rw [hj, Function.update_self]
    exact hi
  · rw [Function.update_of_ne hj]
    exact h j

theorem Distinct.erase (h : Distinct t) (k : ℕ) : Distinct (t.erase k) := by
  intro j
  by_cases hj : j = k
  · rw [hj, dirents, Finmap.lookup_erase]
    exact List.nodup_nil
  · rw [dirents, Finmap.lookup_erase_ne hj]
    exact h j

theorem Distinct.of_lookup (h : Distinct t) {k : ℕ} {i : MyInode} (hi : t.lookup k = some i) :
    (i.direntBuf.map MyDirent.dName).Nodup := by
  rw [← dirents_of_lookup hi]
  exact h k

theorem myMkdir_distinct (hw : WellFormed s.ilist) (hd : Distinct s.ilist) {path : Str}
    {mode : Mode} {r : ℤ} (h : myMkdir path mode s = some (r,s')) : Distinct s'.ilist := by
  by_cases hm : Makes path s
  · obtain ⟨q,i,-,hi,hfree,hmade⟩ := myMkdir_makes hw mode hm
    obtain ⟨-,rfl⟩ := Prod.mk.inj (Option.some.inj (hmade.symm.trans h))
    have hnew : ((newInode mode s).direntBuf.map MyDirent.dName).Nodup := List.nodup_nil
    exact (hd.insert hnew).insert (nodup_push (hd.of_lookup hi) hfree)
  · obtain ⟨-,rfl⟩ := Prod.mk.inj (Option.some.inj ((myMkdir_refuses hw mode hm).symm.trans h))
    exact hd

theorem myRmdir_distinct (hd : Distinct s.ilist) {path : Str} (hm : Move s (.rmdir path) s') :
    Distinct s'.ilist := by
  cases hm with
  | idle h => exact hd
  | named hc hp h => exact absurd rfl (hc path)
  | @removed _ name p k i d hk hp hdi hi =>
    have hsub : ((dropDirent name i).direntBuf.map MyDirent.dName).Sublist
        (i.direntBuf.map MyDirent.dName) := List.eraseP_sublist.map _
    exact (hd.insert ((hd.of_lookup hp).sublist hsub)).erase k
  | opened hc h => exact hd

theorem myChmod_distinct (hd : Distinct s.ilist) {path : Str} {mode : Mode} {r : ℤ}
    (h : myChmod path mode s = some (r,s')) : Distinct s'.ilist := by
  rw [myChmod] at h
  cases hk : getInodeNumber path s with
  | none =>
    rw [hk] at h
    obtain ⟨-,rfl⟩ := Prod.mk.inj (Option.some.inj h)
    exact hd
  | some k =>
    simp only [hk] at h
    obtain ⟨t,ht,he⟩ := Option.map_eq_some_iff.mp h
    obtain ⟨-,rfl⟩ := Prod.mk.inj he
    obtain ⟨i,hi,rfl⟩ := modifyInode_some ht
    have hsame : (i.direntBuf.map MyDirent.dName).Nodup := hd.of_lookup hi
    exact hd.insert hsame

theorem distinct_step (hw : WellFormed s.ilist) (hd : Distinct s.ilist) (hc : DirCall c s)
    (h : advance c s = some s') : Distinct s'.ilist := by
  cases c with
  | mkdir path mode =>
    obtain ⟨r,hr,rfl⟩ := Option.map_eq_some_iff.mp h
    exact myMkdir_distinct hw hd hr
  | rmdir path => exact myRmdir_distinct hd (advance_some hw h)
  | chmod path mode =>
    obtain ⟨r,hr,rfl⟩ := Option.map_eq_some_iff.mp h
    exact myChmod_distinct hd hr
  | _ => exact absurd hc id

theorem reaches_distinct (h : Reaches advance DirCall (rootOnly rootMode) s) :
    WellFormed s.ilist ∧ Distinct s.ilist := by
  apply h.invariant
  · apply And.intro (rootOnly_wellFormed rootMode)
    intro k
    rw [rootOnly_dirents]
    exact List.nodup_nil
  · intro c t t' ht hc hstep
    exact ⟨(advance_some ht.1 hstep).wellFormed ht.1,distinct_step ht.1 ht.2 hc hstep⟩

/-- What `my_rename` does in a state reached: the entry is somewhere in the
parent, and if it is the first one the call reads past the end. -/
theorem rename_outcome (h : Reaches advance DirCall (rootOnly rootMode) s)
    (hp : SameParent oldpath newpath) (hn : getInodeNumber oldpath s = some n) :
    ∃ q xs d ys, getInodeNumber (creatPath (dirNames oldpath).dropLast) s = some q ∧
      dirents s.ilist q = xs++d::ys ∧ d.dName = (dirNames oldpath).getLastD [] ∧ d.dIno = n ∧
        myRename oldpath newpath s = if xs = [] then none else some (ok,s) := by
  obtain ⟨hw,hd⟩ := reaches_distinct h
  obtain ⟨q,i,d,hq,hi,hfound,hino⟩ := getInodeNumber_snoc hw hp.old hn
  rw [← getInodeNumber_creatPath hw] at hq
  obtain ⟨hname,xs,ys,hsplit,hxs⟩ := List.find?_eq_some_iff_append.mp hfound
  have hname' : d.dName = (dirNames oldpath).getLastD [] := by simpa using hname
  refine ⟨q,xs,d,ys,hq,(dirents_of_lookup hi).trans hsplit,hname',hino,?_⟩
  simp only [myRename, hn, hp.old, hp.new, if_false, hq, hi, hsplit]
  split_ifs with hfirst
  · -- no other entry has the name
    have hnodup := hd.of_lookup hi
    rw [hsplit, hfirst, List.nil_append, List.map_cons, List.nodup_cons, hname'] at hnodup
    rw [hfirst, List.nil_append, renameLoop_first]
    · rfl
    · exact fun e he hsame => hnodup.1 (hsame ▸ List.mem_map_of_mem he)
  · rw [renameLoop_later hfirst _ hname']
    · rfl
    · intro e he
      simpa using hxs e he

/-- A call that returns has changed nothing, so that renaming never takes
effect. -/
theorem rename_never (h : Reaches advance DirCall (rootOnly rootMode) s)
    (hp : SameParent oldpath newpath) (hn : getInodeNumber oldpath s = some n)
    (hnew : getInodeNumber newpath s = none) : ¬ Renamed oldpath newpath n s := by
  intro ⟨s',hr,hthere,_⟩
  obtain ⟨q,xs,d,ys,-,-,-,-,hcall⟩ := rename_outcome h hp hn
  rw [hcall] at hr
  split_ifs at hr
  obtain ⟨-,rfl⟩ := Prod.mk.inj (Option.some.inj hr)
  rw [hnew] at hthere
  exact nomatch hthere

/-- The second of two directories. -/
theorem rename_never_second :
    ∃ s, Reaches advance DirCall (rootOnly 0o755#32) s ∧
      getInodeNumber ['/','b'] s = some 2 ∧ ¬ Renamed ['/','b'] ['/','c'] 2 s := by
  have hmeets : Meets advance DirCall [.mkdir ['/','a'] 0o755#32,.mkdir ['/','b'] 0o755#32]
      (rootOnly 0o755#32) := by decide
  have hreach := reaches_of_exec _ hmeets rfl
  have hp : SameParent ['/','b'] ['/','c'] := ⟨by decide,by decide,by decide⟩
  exact ⟨_,hreach,by decide,rename_never hreach hp (by decide) (by decide)⟩

/-- The only directory: the call reads past the end. -/
theorem rename_fails :
    ¬ ∀ (rootMode : Mode) (s : Fuse) (oldpath newpath : Str) (n : ℕ),
      Reaches advance DirCall (rootOnly rootMode) s → SameParent oldpath newpath →
        getInodeNumber oldpath s = some n → getInodeNumber newpath s = none →
          Renamed oldpath newpath n s := by
  intro hall
  have hmeets : Meets advance DirCall [.mkdir ['/','a'] 0o755#32] (rootOnly 0o755#32) := by decide
  have hp : SameParent ['/','a'] ['/','b'] := ⟨by decide,by decide,by decide⟩
  obtain ⟨s',hr,-⟩ := hall _ _ _ _ 1 (reaches_of_exec _ hmeets rfl) hp (by decide) (by decide)
  exact nomatch hr

end Bbfs.FuseRename
