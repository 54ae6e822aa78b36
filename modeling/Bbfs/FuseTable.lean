import Bbfs.Counting
import Bbfs.FuseCalls

/-!
# The inode table of the FUSE variant

The walk over a path and the walk over its parent followed by a search for the
last piece agree, so `my_rmdir` erases the inode of the dirent it removes.
Every dirent names a later inode of the table and no two name the same one;
the number to be given out next is past all of them.
-/

set_option autoImplicit false

namespace Bbfs.FuseTable
open Bbfs.Strings Bbfs.Files Bbfs.FuseCalls Bbfs.Runs Bbfs.Counting

abbrev Table := Finmap (fun _ : ℕ => MyInode)

def dirents (t : Table) (k : ℕ) : List MyDirent := (t.lookup k).elim [] MyInode.direntBuf

def timesNamed (t : Table) (i : ℕ) : ℕ := census t.keys (fun d => d.dIno == i) (dirents t)

structure WellFormed (t : Table) : Prop where
  root : 0 ∈ t
  number : ∀ k i, t.lookup k = some i → i.iIno = k
  ahead : ∀ k, ∀ d ∈ dirents t k, d.dIno ∈ t ∧ k < d.dIno
  once : ∀ i, timesNamed t i ≤ 1

/-- `my_creat` is called with a path other than the root's, whose parent is
found. -/
def Resolving : FuseCall → Fuse → Prop
  | .creat pathname _, s => dirNames pathname ≠ [] ∧
    (getInodeNumber (creatPath (dirNames pathname).dropLast) s).isSome = true
  | _, _ => True

instance (c : FuseCall) (s : Fuse) : Decidable (Resolving c s) := by
  induction c using FuseCall.casesOn <;> unfold Resolving <;> infer_instance

def Removes (pathname : Str) (k : ℕ) (s : Fuse) : Prop :=
  getInodeNumber pathname s = some k ∧ k ≠ 0 ∧ dirents s.ilist k = []

instance (pathname : Str) (k : ℕ) (s : Fuse) : Decidable (Removes pathname k s) :=
  inferInstanceAs (Decidable (_ ∧ _ ∧ _))

inductive Move (s : Fuse) : FuseCall → Fuse → Prop
  | idle {c : FuseCall} (h : ∀ pathname k, c = .rmdir pathname → ¬ Removes pathname k s) :
      Move s c s
  | remode {path : Str} {mode : Mode} {k : ℕ} {i : MyInode} (h : s.ilist.lookup k = some i) :
      Move s (.chmod path mode)
        { s with ilist := s.ilist.insert k { i with iMode := mode } }
  | added {pathname : Str} {mode : Mode} : Move s (.creat pathname mode) (inodeInit mode s).2
  | named {c : FuseCall} {mode : Mode} {p : ℕ} {name : Str} {s' : Fuse}
      (hc : ∀ pathname, c ≠ .rmdir pathname) (hp : p ∈ s.ilist)
      (h : modifyInode p (pushDirent ⟨(inodeInit mode s).1,name⟩) (inodeInit mode s).2 = some s') :
      Move s c s'
  | removed {pathname name : Str} {p k : ℕ} {i : MyInode} {d : MyDirent}
      (hk : Removes pathname k s) (hp : s.ilist.lookup p = some i)
      (hd : i.direntBuf.find? (fun d => d.dName == name) = some d) (hi : d.dIno = k) :
      Move s (.rmdir pathname)
        { s with ilist := (s.ilist.insert p (dropDirent name i)).erase k }
  | opened {c : FuseCall} {mode : Mode} {flags k : ℕ} {i : MyInode}
      (hc : ∀ pathname, c ≠ .rmdir pathname) (h : s.ilist.lookup k = some i) :
      Move s c (fileInit mode 0 flags i.node s).2
  | closed {fd : ℤ} : Move s (.close fd) { s with openFT := s.openFT.erase (toU64 fd) }

variable {s s' : Fuse} {t t' : Table} {c : FuseCall} {k p : ℕ} {names : List Str}
  {i : MyInode}

theorem splitLoop_eq (pat : Str) (fuel : ℕ) (rest : Str) :
    FuseCalls.splitLoop pat fuel rest =
      (Strings.splitLoop pat fuel rest).map (List.filter (fun w => !w.isEmpty)) := by
  induction fuel generalizing rest with
  | zero => rfl
  | succ fuel ih =>
    rw [FuseCalls.splitLoop, Strings.splitLoop]
    cases find pat rest with
    | none => cases rest <;> rfl
    | some t =>
      simp only [ih, Option.map_map]
      congr 1
      funext v
      cases rest.take t <;> simp

theorem dirNames_eq (path : Str) :
    dirNames path = (segments path).filter (fun w => !w.isEmpty) := by
  have hloop := splitLoop_slash path (path.length+1) (Nat.lt_succ_self _)
  rw [dirNames, FuseCalls.split, splitLoop_eq, segments, Strings.split, hloop]
  rfl

def Pieces (names : List Str) : Prop := ∀ w ∈ names, w ≠ [] ∧ '/' ∉ w

theorem dirNames_pieces (path : Str) : Pieces (dirNames path) := by
  intro w hw
  rw [dirNames_eq, List.mem_filter] at hw
  exact ⟨by simpa using hw.2,segments_slash_free path w hw.1⟩

theorem Pieces.filter (h : Pieces names) : names.filter (fun w => !w.isEmpty) = names := by
  rw [List.filter_eq_self]
  intro w hw
  simpa using (h w hw).1

theorem Pieces.dropLast (h : Pieces names) : Pieces names.dropLast :=
  fun w hw => h w (List.dropLast_subset _ hw)

theorem segments_parent {w : Str} {ws : List Str} (h : Pieces (w::ws)) :
    segments (w++FuseCalls.parentPath ws) = w::ws := by
  induction ws generalizing w with
  | nil =>
    rw [FuseCalls.parentPath, List.map_nil, List.flatten_nil, List.append_nil]
    exact segments_of_slash_free w (h w (by simp)).2
  | cons u us ih =>
    have hrest : FuseCalls.parentPath (u::us) = '/'::(u++FuseCalls.parentPath us) := rfl
    have hw := segments_of_slash_free w (h w (by simp)).2
    rw [hrest, segments_append, hw, ih (fun v hv => h v (by simp [hv]))]
    rfl

theorem dirNames_parentPath (h : Pieces names) : dirNames (FuseCalls.parentPath names) = names := by
  cases names with
  | nil => rfl
  | cons w ws =>
    have hfirst : FuseCalls.parentPath (w::ws) = '/'::(w++FuseCalls.parentPath ws) := rfl
    rw [dirNames_eq, hfirst, segments_cons_slash, segments_parent h,
      List.filter_cons_of_neg (by simp)]
    exact h.filter

theorem dirents_of_lookup (h : t.lookup k = some i) :
    dirents t k = i.direntBuf := by
  rw [dirents, h]
  rfl

theorem mem_of_lookup (h : t.lookup k = some i) : k ∈ t :=
  Finmap.mem_of_lookup_eq_some h

theorem keys_of_dirents (h : dirents t k ≠ []) : k ∈ t.keys := by
  rw [Finmap.mem_keys]
  by_contra hk
  rw [dirents, Finmap.lookup_eq_none.mpr hk] at h
  exact h rfl

theorem getInodeLoop_cons {w : Str} :
    getInodeLoop t (w::names) i = some k ↔
      ∃ d j, i.direntBuf.find? (fun d => d.dName == w) = some d ∧ t.lookup d.dIno = some j ∧
        getInodeLoop t names j = some k := by
  rw [getInodeLoop]
  cases hd : i.direntBuf.find? (fun d => d.dName == w) with
  | none => simp
  | some d =>
    cases hn : t.lookup d.dIno with
    | none => simp [hn]
    | some j => simp [hn]

theorem getInodeLoop_mem (hw : WellFormed t) (hi : t.lookup p = some i)
    (h : getInodeLoop t names i = some k) : k ∈ t := by
  induction names generalizing i p with
  | nil =>
    rw [getInodeLoop, hw.number p i hi] at h
    exact Option.some.inj h ▸ mem_of_lookup hi
  | cons w ws ih =>
    obtain ⟨d,j,-,hn,h⟩ := getInodeLoop_cons.mp h
    exact ih hn h

theorem getInodeLoop_snoc (hw : WellFormed t) (hi : t.lookup p = some i) {w : Str}
    (h : getInodeLoop t (names++[w]) i = some k) :
    ∃ q j d, getInodeLoop t names i = some q ∧ t.lookup q = some j ∧
      j.direntBuf.find? (fun d => d.dName == w) = some d ∧ d.dIno = k := by
  induction names generalizing i p with
  | nil =>
    obtain ⟨d,j,hd,hn,h⟩ := getInodeLoop_cons.mp h
    rw [getInodeLoop, hw.number _ j hn] at h
    exact ⟨p,i,d,by rw [getInodeLoop, hw.number p i hi],hi,hd,Option.some.inj h⟩
  | cons v vs ih =>
    obtain ⟨d,j,hd,hn,h⟩ := getInodeLoop_cons.mp h
    obtain ⟨q,m,e,hq,hrest⟩ := ih hn h
    exact ⟨q,m,e,getInodeLoop_cons.mpr ⟨d,j,hd,hn,hq⟩,hrest⟩

theorem getInodeNumber_eq {root : MyInode} (h : s.ilist.lookup 0 = some root) (path : Str) :
    getInodeNumber path s = getInodeLoop s.ilist (dirNames path) root := by
  rw [getInodeNumber, h]

theorem WellFormed.lookup_root (hw : WellFormed t) : ∃ root, t.lookup 0 = some root :=
  Finmap.mem_iff.mp hw.root

theorem getInodeNumber_mem (hw : WellFormed s.ilist) {path : Str}
    (h : getInodeNumber path s = some k) : k ∈ s.ilist := by
  obtain ⟨root,hroot⟩ := hw.lookup_root
  rw [getInodeNumber_eq hroot] at h
  exact getInodeLoop_mem hw hroot h

theorem dropLast_getLastD (h : names ≠ []) : names.dropLast++[names.getLastD []] = names := by
  rw [List.getLastD_eq_getLast?, List.getLast?_eq_some_getLast h, Option.getD_some,
    List.dropLast_append_getLast]

theorem getInodeNumber_snoc (hw : WellFormed s.ilist) {path : Str} (hne : dirNames path ≠ [])
    (h : getInodeNumber path s = some k) :
    ∃ q j d, getInodeNumber (FuseCalls.parentPath (dirNames path).dropLast) s = some q ∧
      s.ilist.lookup q = some j ∧
      j.direntBuf.find? (fun d => d.dName == (dirNames path).getLastD []) = some d ∧
      d.dIno = k := by
  obtain ⟨root,hroot⟩ := hw.lookup_root
  rw [getInodeNumber_eq hroot, ← dropLast_getLastD hne] at h
  obtain ⟨q,j,d,hq,hj,hd,hi⟩ := getInodeLoop_snoc hw hroot h
  refine ⟨q,j,d,?_,hj,hd,hi⟩
  rw [getInodeNumber_eq hroot, dirNames_parentPath (dirNames_pieces path).dropLast]
  exact hq

theorem dirNames_ne_nil (hw : WellFormed s.ilist) {path : Str}
    (h : getInodeNumber path s = some k) (h0 : k ≠ 0) : dirNames path ≠ [] := by
  obtain ⟨root,hroot⟩ := hw.lookup_root
  intro hnil
  rw [getInodeNumber_eq hroot, hnil, getInodeLoop, hw.number 0 root hroot] at h
  exact h0 (Option.some.inj h).symm

theorem le_maxInode (hw : WellFormed s.ilist) (hk : k ∈ s.ilist) : k ≤ maxInode s := by
  obtain ⟨i,hi⟩ := Finmap.mem_iff.mp hk
  have hle := Finset.le_sup (f := fun k => (s.ilist.lookup k).elim 0 MyInode.iIno)
    (Finmap.mem_keys.mpr hk)
  simp only [hi, Option.elim_some, hw.number k i hi] at hle
  exact hle

theorem next_notMem (hw : WellFormed s.ilist) : maxInode s+1 ∉ s.ilist := by
  intro h
  have hle := le_maxInode hw h
  omega

/-- The number that `inode_init` gives out is past every number named. -/
theorem WellFormed.fresh (hw : WellFormed s.ilist) (mode : Mode) :
    ∀ k, ∀ d ∈ dirents s.ilist k, d.dIno ≠ (inodeInit mode s).1 := by
  intro k d hd hnext
  have hmem := (hw.ahead k d hd).1
  rw [hnext] at hmem
  exact next_notMem hw hmem

theorem inodeInit_ilist (hw : WellFormed s.ilist) (mode : Mode) :
    (inodeInit mode s).2.ilist = s.ilist.insert (maxInode s+1)
      { iIno := maxInode s+1, iMode := mode, node := s.nodes } := by
  rw [inodeInit, insertNew, if_neg (next_notMem hw)]

theorem dirents_insert (t : Table) (k : ℕ) (i : MyInode) :
    dirents (t.insert k i) = Function.update (dirents t) k i.direntBuf := by
  funext j
  by_cases hj : j = k
  · subst hj
    simp [dirents, Finmap.lookup_insert]
  · simp [dirents, Finmap.lookup_insert_of_ne _ hj, hj]

theorem timesNamed_pos {i : ℕ} : 0 < timesNamed t i ↔ ∃ k, ∃ d ∈ dirents t k, d.dIno = i := by
  rw [timesNamed, census_pos (fun _ => keys_of_dirents)]
  simp only [beq_iff_eq]

theorem WellFormed.frame (hw : WellFormed t) (hk : ∀ j, j ∈ t' ↔ j ∈ t)
    (hn : ∀ j i, t'.lookup j = some i → i.iIno = j) (hd : dirents t' = dirents t) :
    WellFormed t' := by
  have hkeys : t'.keys = t.keys := by
    ext j
    rw [Finmap.mem_keys, Finmap.mem_keys]
    exact hk j
  constructor
  · exact (hk 0).mpr hw.root
  · exact hn
  · intro j d hdj
    rw [hd] at hdj
    obtain ⟨hmem,hlt⟩ := hw.ahead j d hdj
    exact ⟨(hk d.dIno).mpr hmem,hlt⟩
  · intro i
    rw [timesNamed, hkeys, hd]
    exact hw.once i

theorem lookup_number {i j : MyInode} (hn : ∀ k i, t.lookup k = some i → i.iIno = k)
    (hj : j.iIno = p) (h : (t.insert p j).lookup k = some i) : i.iIno = k := by
  by_cases hk : k = p
  · subst hk
    rw [Finmap.lookup_insert] at h
    exact Option.some.inj h ▸ hj
  · rw [Finmap.lookup_insert_of_ne _ hk] at h
    exact hn k i h

theorem dirents_insert_new (hp : p ∉ t) {j : MyInode} (hb : j.direntBuf = []) :
    dirents (t.insert p j) = dirents t := by
  have hnil : dirents t p = [] := by
    by_contra hne
    exact hp (Finmap.mem_keys.mp (keys_of_dirents hne))
  rw [dirents_insert, hb, ← hnil]
  exact Function.update_eq_self p (dirents t)

theorem WellFormed.insert_new (hw : WellFormed t) (hp : p ∉ t) {j : MyInode} (hj : j.iIno = p)
    (hb : j.direntBuf = []) : WellFormed (t.insert p j) := by
  have hd := dirents_insert_new hp hb
  constructor
  · exact Finmap.mem_insert.mpr (Or.inr hw.root)
  · exact fun k i => lookup_number hw.number hj
  · intro k d hdk
    rw [hd] at hdk
    obtain ⟨hmem,hlt⟩ := hw.ahead k d hdk
    exact ⟨Finmap.mem_insert.mpr (Or.inr hmem),hlt⟩
  · intro i
    have hsub : t.keys ⊆ (t.insert p j).keys := by
      intro k hk
      rw [Finmap.mem_keys, Finmap.mem_insert]
      exact Or.inr (Finmap.mem_keys.mp hk)
    rw [timesNamed, hd, ← census_extend hsub (fun _ => keys_of_dirents)]
    exact hw.once i

theorem timesNamed_insert (hp : p ∈ t) (j : MyInode) (i : ℕ) :
    timesNamed (t.insert p j) i+(dirents t p).countP (fun d => d.dIno == i) =
      timesNamed t i+j.direntBuf.countP (fun d => d.dIno == i) := by
  have hkeys : (t.insert p j).keys = t.keys := by
    ext k
    rw [Finmap.mem_keys, Finmap.mem_keys, Finmap.mem_insert]
    exact or_iff_right_of_imp (fun hk => hk ▸ hp)
  rw [timesNamed, hkeys, dirents_insert]
  exact census_update (Finmap.mem_keys.mpr hp) j.direntBuf

theorem WellFormed.insert_dirents (hw : WellFormed t) {j : MyInode} (hj : j.iIno = p)
    (hahead : ∀ d ∈ j.direntBuf, d.dIno ∈ t ∧ p < d.dIno)
    (honce : ∀ k, timesNamed (t.insert p j) k ≤ 1) : WellFormed (t.insert p j) := by
  constructor
  · exact Finmap.mem_insert.mpr (Or.inr hw.root)
  · exact fun k i => lookup_number hw.number hj
  · intro k d hd
    have hold : d.dIno ∈ t ∧ k < d.dIno := by
      rw [dirents_insert] at hd
      by_cases hk : k = p
      · subst hk
        rw [Function.update_self] at hd
        exact hahead d hd
      · rw [Function.update_of_ne hk] at hd
        exact hw.ahead k d hd
    exact ⟨Finmap.mem_insert.mpr (Or.inr hold.1),hold.2⟩
  · exact honce

theorem WellFormed.push (hw : WellFormed t) (hi : t.lookup p = some i)
    {d : MyDirent} (hmem : d.dIno ∈ t) (hlt : p < d.dIno) (hnone : timesNamed t d.dIno = 0) :
    WellFormed (t.insert p (pushDirent d i)) := by
  have hnumber : (pushDirent d i).iIno = p := hw.number p i hi
  apply hw.insert_dirents hnumber
  · intro e he
    rw [pushDirent_direntBuf, List.mem_append, List.mem_singleton, ← dirents_of_lookup hi] at he
    rcases he with he | rfl
    · exact hw.ahead p e he
    · exact ⟨hmem,hlt⟩
  · intro k
    have hcount := timesNamed_insert (mem_of_lookup hi) (pushDirent d i) k
    have honce := hw.once k
    rw [dirents_of_lookup hi, pushDirent_direntBuf, List.countP_append,
      List.countP_singleton] at hcount
    by_cases hk : d.dIno = k
    · subst hk
      simp only [beq_self_eq_true, if_true] at hcount
      omega
    · simp only [beq_iff_eq, hk, if_false] at hcount
      omega

theorem timesNamed_drop {d : MyDirent} {name : Str}
    (hi : t.lookup p = some i) (hd : i.direntBuf.find? (fun d => d.dName == name) = some d)
    (k : ℕ) : timesNamed (t.insert p (dropDirent name i)) k+(if d.dIno = k then 1 else 0) =
      timesNamed t k := by
  have hcount := timesNamed_insert (mem_of_lookup hi) (dropDirent name i) k
  have herase := countP_eraseP (fun d => d.dIno == k) (fun d => d.dName == name) i.direntBuf
  rw [hd, Option.toList_some, List.countP_singleton] at herase
  simp only [beq_iff_eq] at herase
  rw [dirents_of_lookup hi, dropDirent_direntBuf] at hcount
  omega

theorem WellFormed.drop (hw : WellFormed t) {d : MyDirent} {name : Str}
    (hi : t.lookup p = some i) (hd : i.direntBuf.find? (fun d => d.dName == name) = some d) :
    WellFormed (t.insert p (dropDirent name i)) := by
  have hnumber : (dropDirent name i).iIno = p := hw.number p i hi
  apply hw.insert_dirents hnumber
  · intro e he
    apply hw.ahead p e
    rw [dirents_of_lookup hi]
    exact List.mem_of_mem_eraseP he
  · intro k
    have hcount := timesNamed_drop hi hd k
    have honce := hw.once k
    omega

theorem WellFormed.erase (hw : WellFormed t) (h0 : k ≠ 0) (hnil : dirents t k = [])
    (hnone : timesNamed t k = 0) : WellFormed (t.erase k) := by
  have hd : dirents (t.erase k) = dirents t := by
    funext j
    by_cases hj : j = k
    · subst hj
      rw [hnil, dirents, Finmap.lookup_erase]
      rfl
    · rw [dirents, Finmap.lookup_erase_ne hj]
      rfl
  constructor
  · exact Finmap.mem_erase.mpr ⟨Ne.symm h0,hw.root⟩
  · intro j i hji
    by_cases hj : j = k
    · subst hj
      simp [Finmap.lookup_erase] at hji
    · rw [Finmap.lookup_erase_ne hj] at hji
      exact hw.number j i hji
  · intro j d hdj
    rw [hd] at hdj
    obtain ⟨hmem,hlt⟩ := hw.ahead j d hdj
    have hne : d.dIno ≠ k := by
      intro hk
      have hpos : 0 < timesNamed t k := timesNamed_pos.mpr ⟨j,d,hdj,hk⟩
      omega
    exact ⟨Finmap.mem_erase.mpr ⟨hne,hmem⟩,hlt⟩
  · intro i
    have hsub : (t.erase k).keys ⊆ t.keys := by
      intro j hj
      rw [Finmap.mem_keys, Finmap.mem_erase] at hj
      exact Finmap.mem_keys.mpr hj.2
    have hcover : ∀ j, dirents t j ≠ [] → j ∈ (t.erase k).keys := by
      intro j hj
      exact keys_of_dirents (hd ▸ hj)
    rw [timesNamed, hd, census_extend hsub hcover]
    exact hw.once i

theorem modifyInode_some {f : MyInode → MyInode} (h : modifyInode k f s = some s') :
    ∃ i, s.ilist.lookup k = some i ∧ s' = { s with ilist := s.ilist.insert k (f i) } := by
  rw [modifyInode] at h
  obtain ⟨i,hi,hs'⟩ := Option.map_eq_some_iff.mp h
  exact ⟨i,hi,hs'.symm⟩

theorem inodeInit_lookup (hw : WellFormed s.ilist) (mode : Mode) (hp : p ∈ s.ilist) :
    (inodeInit mode s).2.ilist.lookup p = s.ilist.lookup p := by
  rw [inodeInit_ilist hw]
  apply Finmap.lookup_insert_of_ne
  intro he
  exact next_notMem hw (he ▸ hp)

theorem WellFormed.inodeInit (hw : WellFormed s.ilist) (mode : Mode) :
    WellFormed (inodeInit mode s).2.ilist := by
  rw [inodeInit_ilist hw]
  exact hw.insert_new (next_notMem hw) rfl rfl

theorem named_moves (hw : WellFormed s.ilist) (hp : p ∈ s.ilist) (mode : Mode) (name : Str)
    (hc : ∀ pathname, c ≠ .rmdir pathname) :
    ∃ r, (modifyInode p (pushDirent ⟨(FuseCalls.inodeInit mode s).1,name⟩)
      (FuseCalls.inodeInit mode s).2).map (fun s' => (toInt32 (FuseCalls.inodeInit mode s).1,s')) =
        some r ∧ Move s c r.2 := by
  obtain ⟨i,hi⟩ := Finmap.mem_iff.mp hp
  have hmodify : modifyInode p (pushDirent ⟨(FuseCalls.inodeInit mode s).1,name⟩)
      (FuseCalls.inodeInit mode s).2 = some { (FuseCalls.inodeInit mode s).2 with
        ilist := (FuseCalls.inodeInit mode s).2.ilist.insert p
          (pushDirent ⟨(FuseCalls.inodeInit mode s).1,name⟩ i) } := by
    rw [modifyInode, inodeInit_lookup hw mode hp, hi, Option.map_some]
  rw [hmodify, Option.map_some]
  exact ⟨_,rfl,Move.named hc hp hmodify⟩

theorem getInodeLoop_insert (hw : WellFormed t) (hn : k ∉ t) {j i : MyInode}
    (hi : t.lookup p = some i) :
    getInodeLoop (t.insert k j) names i = getInodeLoop t names i := by
  induction names generalizing i p with
  | nil => rfl
  | cons w ws ih =>
    rw [getInodeLoop, getInodeLoop]
    cases hd : i.direntBuf.find? (fun d => d.dName == w) with
    | none => rfl
    | some d =>
      have hmem : d ∈ dirents t p := by
        rw [dirents_of_lookup hi]
        exact List.mem_of_find?_eq_some hd
      have hne : d.dIno ≠ k := fun he => hn (he ▸ (hw.ahead p d hmem).1)
      simp only [Finmap.lookup_insert_of_ne _ hne]
      cases hl : t.lookup d.dIno with
      | none => rfl
      | some i => exact ih hl

theorem getInodeNumber_inodeInit (hw : WellFormed s.ilist) (path : Str) (mode : Mode) :
    getInodeNumber path (FuseCalls.inodeInit mode s).2 = getInodeNumber path s := by
  obtain ⟨root,hroot⟩ := hw.lookup_root
  have hroot' := (inodeInit_lookup hw mode hw.root).trans hroot
  rw [getInodeNumber_eq hroot, getInodeNumber_eq hroot', inodeInit_ilist hw]
  exact getInodeLoop_insert hw (next_notMem hw) hroot

theorem myMkdir_moves (hw : WellFormed s.ilist) (pathname : Str) (mode : Mode) :
    ∃ r, myMkdir pathname mode s = some r ∧ Move s (.mkdir pathname mode) r.2 := by
  have hidle : Move s (.mkdir pathname mode) s := Move.idle nofun
  simp only [myMkdir]
  split_ifs with hthere hempty htop
  · exact ⟨_,rfl,hidle⟩
  · exact ⟨_,rfl,hidle⟩
  · exact named_moves hw hw.root mode _ nofun
  · cases hparent : getInodeNumber (FuseCalls.parentPath (dirNames pathname).dropLast) s with
    | none => exact ⟨_,rfl,hidle⟩
    | some p => exact named_moves hw (getInodeNumber_mem hw hparent) mode _ nofun

/-- A call that does not resolve leaves with an exception or writes through the
end of the table. -/
theorem myCreat_moves (hw : WellFormed s.ilist) (pathname : Str) (mode : Mode) :
    myCreat pathname mode s = none ∧ ¬ Resolving (.creat pathname mode) s ∨
      ∃ r, myCreat pathname mode s = some r ∧ Move s (.creat pathname mode) r.2 := by
  have hroot : 0 ∈ (FuseCalls.inodeInit mode s).2.ilist := (hw.inodeInit mode).root
  simp only [myCreat, getInodeNumber_inodeInit hw, not_not_intro hroot, if_false]
  split_ifs with hempty htop
  · exact Or.inl ⟨rfl,fun h => h.1 hempty⟩
  · exact Or.inr ⟨_,rfl,Move.added⟩
  · cases hparent : getInodeNumber (creatPath (dirNames pathname).dropLast) s with
    | none =>
      apply Or.inl
      apply And.intro rfl
      intro h
      have hsome := h.2
      rw [hparent] at hsome
      exact Bool.false_ne_true hsome
    | some p => exact Or.inr (named_moves hw (getInodeNumber_mem hw hparent) mode _ nofun)

theorem myRmdir_removes {path : Str} {q : ℕ} {j : MyInode} {d : MyDirent}
    (hk : getInodeNumber path s = some k) (h0 : k ≠ 0) (hi : s.ilist.lookup k = some i)
    (hnil : i.direntBuf = []) (hne : dirNames path ≠ [])
    (hq : getInodeNumber (FuseCalls.parentPath (dirNames path).dropLast) s = some q)
    (hj : s.ilist.lookup q = some j)
    (hd : j.direntBuf.find? (fun d => d.dName == (dirNames path).getLastD []) = some d) :
    myRmdir path s = some (ok, { s with
      ilist := (s.ilist.insert q (dropDirent ((dirNames path).getLastD []) j)).erase k }) := by
  have hempty : ¬ i.direntBuf.length > 0 := by simp [hnil]
  simp only [myRmdir, hk, h0, if_false, hi, hempty, hne, hq, hj, hd, Option.isNone_some,
    Bool.false_eq_true, modifyInode, Option.map_some]

theorem myRmdir_moves (hw : WellFormed s.ilist) (pathname : Str) :
    ∃ r, myRmdir pathname s = some r ∧ Move s (.rmdir pathname) r.2 := by
  have hidle : (∀ k, ¬ Removes pathname k s) → Move s (.rmdir pathname) s := by
    intro h
    apply Move.idle
    intro path k he
    obtain rfl := FuseCall.rmdir.inj he
    exact h k
  cases hk : getInodeNumber pathname s with
  | none =>
    have hstop : ∀ k, ¬ Removes pathname k s := by
      intro k h
      simp [Removes, hk] at h
    rw [myRmdir, hk]
    exact ⟨_,rfl,hidle hstop⟩
  | some k =>
    obtain ⟨i,hi⟩ := Finmap.mem_iff.mp (getInodeNumber_mem hw hk)
    have hstop : k = 0 ∨ i.direntBuf ≠ [] → ∀ j, ¬ Removes pathname j s := by
      rintro h j ⟨hj,h0,hnil⟩
      obtain rfl := Option.some.inj (hk.symm.trans hj)
      rw [dirents_of_lookup hi] at hnil
      exact h.elim h0 (fun hne => hne hnil)
    by_cases h0 : k = 0
    · simp only [myRmdir, hk, if_pos h0]
      exact ⟨_,rfl,hidle (hstop (Or.inl h0))⟩
    by_cases hfull : i.direntBuf.length > 0
    · simp only [myRmdir, hk, if_neg h0, hi, if_pos hfull]
      exact ⟨_,rfl,hidle (hstop (Or.inr (List.ne_nil_of_length_pos hfull)))⟩
    · have hne := dirNames_ne_nil hw hk h0
      obtain ⟨q,j,d,hq,hj,hd,hdk⟩ := getInodeNumber_snoc hw hne hk
      have hnil : i.direntBuf = [] := List.length_eq_zero_iff.mp (Nat.eq_zero_of_not_pos hfull)
      have hempty : dirents s.ilist k = [] := (dirents_of_lookup hi).trans hnil
      exact ⟨_,myRmdir_removes hk h0 hi hnil hne hq hj hd,Move.removed ⟨hk,h0,hempty⟩ hj hd hdk⟩

theorem myChmod_moves (hw : WellFormed s.ilist) (path : Str) (mode : Mode) :
    ∃ r, myChmod path mode s = some r ∧ Move s (.chmod path mode) r.2 := by
  rw [myChmod]
  cases hk : getInodeNumber path s with
  | none => exact ⟨_,rfl,Move.idle nofun⟩
  | some k =>
    obtain ⟨i,hi⟩ := Finmap.mem_iff.mp (getInodeNumber_mem hw hk)
    simp only [modifyInode, hi, Option.map_some]
    exact ⟨_,rfl,Move.remode hi⟩

theorem openWith_moves (hc : ∀ path, c ≠ .rmdir path) (mode : Mode) (pathname : Str) (flags : ℕ) :
    Move s c (openWith mode pathname flags s).2 := by
  have hidle : Move s c s := Move.idle (fun path _ h => absurd h (hc path))
  rw [openWith]
  cases getInodeNumber pathname s with
  | none => exact hidle
  | some k =>
    cases hi : s.ilist.lookup k with
    | none =>
      simp only [hi]
      exact hidle
    | some i =>
      simp only [hi]
      exact Move.opened hc hi

theorem myClose_moves (fd : ℤ) : Move s (.close fd) (myClose fd s).2 := by
  rw [myClose]
  split_ifs
  · exact Move.closed
  · exact Move.idle nofun

theorem advance_moves (hw : WellFormed s.ilist) (c : FuseCall) :
    advance c s = none ∧ ¬ Resolving c s ∨ ∃ s', advance c s = some s' ∧ Move s c s' := by
  have hsome : (∃ r, answer c s = some r ∧ Move s c r.2) →
      ∃ s', advance c s = some s' ∧ Move s c s' := by
    intro ⟨r,hr,hm⟩
    exact ⟨r.2,by rw [advance, hr, Option.map_some],hm⟩
  cases c with
  | mkdir pathname mode => exact Or.inr (hsome (myMkdir_moves hw pathname mode))
  | creat pathname mode =>
    rcases myCreat_moves hw pathname mode with ⟨hnone,hres⟩ | h
    · exact Or.inl ⟨by rw [advance, answer, hnone]; rfl,hres⟩
    · exact Or.inr (hsome h)
  | rmdir pathname => exact Or.inr (hsome (myRmdir_moves hw pathname))
  | chmod path mode => exact Or.inr (hsome (myChmod_moves hw path mode))
  | open1 pathname flags =>
    have hc : ∀ path, FuseCall.open1 pathname flags ≠ .rmdir path := nofun
    exact Or.inr (hsome ⟨_,rfl,openWith_moves hc _ _ _⟩)
  | open2 pathname flags mode =>
    have hc : ∀ path, FuseCall.open2 pathname flags mode ≠ .rmdir path := nofun
    exact Or.inr (hsome ⟨_,rfl,openWith_moves hc _ _ _⟩)
  | close fd => exact Or.inr (hsome ⟨_,rfl,myClose_moves fd⟩)

theorem advance_some (hw : WellFormed s.ilist) (h : advance c s = some s') : Move s c s' := by
  rcases advance_moves hw c with ⟨hnone,-⟩ | ⟨t,ht,hm⟩
  · rw [hnone] at h
    exact nomatch h
  · exact Option.some.inj (ht.symm.trans h) ▸ hm

theorem dirents_remode (h : t.lookup k = some i) (mode : Mode) :
    dirents (t.insert k { i with iMode := mode }) = dirents t := by
  rw [dirents_insert, ← dirents_of_lookup h]
  exact Function.update_eq_self k (dirents t)

theorem Move.wellFormed (hm : Move s c s') (hw : WellFormed s.ilist) : WellFormed s'.ilist := by
  cases hm with
  | idle h => exact hw
  | remode h =>
    apply hw.frame
    · intro j
      rw [Finmap.mem_insert]
      exact or_iff_right_of_imp (fun hj => hj ▸ mem_of_lookup h)
    · have hnumber := hw.number _ _ h
      exact fun j i => lookup_number hw.number hnumber
    · exact dirents_remode h _
  | added => exact hw.inodeInit _
  | @named _ mode p name _ hc hp h =>
    obtain ⟨i,hi,rfl⟩ := modifyInode_some h
    have hnew : (FuseCalls.inodeInit mode s).1 ∈ (FuseCalls.inodeInit mode s).2.ilist := by
      rw [inodeInit_ilist hw]
      exact Finmap.mem_insert.mpr (Or.inl rfl)
    have hnone : timesNamed (FuseCalls.inodeInit mode s).2.ilist
        (FuseCalls.inodeInit mode s).1 = 0 := by
      by_contra hne
      obtain ⟨j,d,hd,hnamed⟩ := timesNamed_pos.mp (Nat.pos_of_ne_zero hne)
      rw [inodeInit_ilist hw, dirents_insert_new (next_notMem hw) rfl] at hd
      exact hw.fresh mode j d hd hnamed
    exact (hw.inodeInit mode).push hi hnew (Nat.lt_succ_of_le (le_maxInode hw hp)) hnone
  | @removed _ name p k i d hk hp hd hi =>
    have hcount := timesNamed_drop hp hd k
    have honce := hw.once k
    rw [if_pos hi] at hcount
    apply (hw.drop hp hd).erase hk.2.1
    · have hne : k ≠ p := by
        rintro rfl
        have hnil := hk.2.2
        rw [dirents_of_lookup hp] at hnil
        rw [hnil] at hd
        exact nomatch hd
      rw [dirents_insert, Function.update_of_ne hne]
      exact hk.2.2
    · omega
  | opened hc h => exact hw
  | closed => exact hw

theorem rootOnly_lookup {mode : Mode} (h : (rootOnly mode).ilist.lookup k = some i) :
    k = 0 ∧ i = { iIno := 0, iMode := mode, node := 0 } := by
  have hk : k = 0 := by simpa [rootOnly] using mem_of_lookup h
  subst hk
  simp only [rootOnly, Finmap.lookup_singleton_eq, Option.some.injEq] at h
  exact ⟨rfl,h.symm⟩

theorem rootOnly_dirents (mode : Mode) (k : ℕ) : dirents (rootOnly mode).ilist k = [] := by
  cases h : (rootOnly mode).ilist.lookup k with
  | none => rw [dirents, h]; rfl
  | some i =>
    obtain ⟨-,rfl⟩ := rootOnly_lookup h
    exact dirents_of_lookup h

theorem rootOnly_wellFormed (mode : Mode) : WellFormed (rootOnly mode).ilist := by
  constructor
  · exact (Finmap.mem_singleton _ _ _).mpr rfl
  · intro k i hi
    obtain ⟨rfl,rfl⟩ := rootOnly_lookup hi
    rfl
  · intro k d hd
    rw [rootOnly_dirents] at hd
    exact absurd hd List.not_mem_nil
  · intro i
    by_contra hmore
    obtain ⟨k,d,hd,-⟩ := timesNamed_pos.mp (Nat.lt_trans Nat.zero_lt_one (Nat.not_le.mp hmore))
    rw [rootOnly_dirents] at hd
    exact absurd hd List.not_mem_nil

theorem reaches_wellFormed {rootMode : Mode}
    (h : Reaches advance Resolving (rootOnly rootMode) s) : WellFormed s.ilist := by
  apply h.invariant (rootOnly_wellFormed rootMode)
  intro c t t' ht _ hstep
  exact (advance_some ht hstep).wellFormed ht

/-- In every run from the root inode alone, the calls are answered, the table
stays well-formed, and the next number given out is named by no dirent. -/
theorem table_stays_well_formed {rootMode : Mode}
    (h : Reaches advance Resolving (rootOnly rootMode) s) :
    WellFormed s.ilist ∧ (∀ mode k, ∀ d ∈ dirents s.ilist k, d.dIno ≠ (inodeInit mode s).1) ∧
      ∀ c, Resolving c s → (advance c s).isSome = true := by
  have hw := reaches_wellFormed h
  refine ⟨hw,hw.fresh,?_⟩
  intro c hc
  rcases advance_moves hw c with ⟨-,hno⟩ | ⟨s',hs',-⟩
  · exact absurd hc hno
  · rw [hs']
    rfl

theorem table_stays_well_formed_run :
    ∃ s, Reaches advance Resolving (rootOnly 0o755#32) s ∧ s.ilist.keys = {0,1,2} ∧
      WellFormed s.ilist ∧ (∀ mode k, ∀ d ∈ dirents s.ilist k, d.dIno ≠ (inodeInit mode s).1) ∧
        ∀ c, Resolving c s → (advance c s).isSome = true := by
  have hmeets : Meets advance Resolving [.mkdir ['/','a'] 0o755#32,
      .creat ['/','a','/','f'] 0o644#32,.mkdir ['/','a','/','b'] 0o755#32,
      .rmdir ['/','a','/','b']] (rootOnly 0o755#32) := by decide
  have hreach := reaches_of_exec _ hmeets rfl
  exact ⟨_,hreach,by decide,table_stays_well_formed hreach⟩

end Bbfs.FuseTable
