import Bbfs.Contents
import Bbfs.FuseMkdir

/-!
# Files made in the FUSE variant

`my_creat` adds an inode before it looks at the path, and then appends a dirent
for it to the inode that the parent path leads to. With the root as parent the
dirent goes into a copy; a parent that is missing is dereferenced all the same.
In a table of any kind a path leads to the number stored in the inode where its
walk ends, which need not be the key of that inode.
-/

set_option autoImplicit false

namespace Bbfs.FuseCreat
open Bbfs.Strings Bbfs.Files Bbfs.FuseCalls Bbfs.FuseTable Bbfs.Runs Bbfs.FuseMkdir

variable {s s' : Fuse} {t : Table} {i : MyInode} {k p q : ℕ} {names ws : List Str}
  {path name : Str} {mode : Mode} {d : MyDirent}

def walkKey (t : Table) : List Str → ℕ → Option ℕ
  | [], k => some k
  | w::ws, k =>
    match (dirents t k).find? (fun d => d.dName == w) with
    | none => none
    | some d => if d.dIno ∈ t then walkKey t ws d.dIno else none

def numberAt (t : Table) (k : ℕ) : Option ℕ := (t.lookup k).map MyInode.iIno

theorem getInodeLoop_walk (hi : t.lookup p = some i) :
    getInodeLoop t names i = (walkKey t names p).bind (numberAt t) := by
  induction names generalizing p i with
  | nil => rw [getInodeLoop, walkKey, Option.bind_some, numberAt, hi, Option.map_some]
  | cons w ws ih =>
    rw [getInodeLoop, walkKey, dirents_of_lookup hi]
    cases hd : i.direntBuf.find? (fun d => d.dName == w) with
    | none => rfl
    | some d =>
      cases hl : t.lookup d.dIno with
      | none => simp [hl, Finmap.lookup_eq_none.mp hl]
      | some j =>
        simp only [hl, mem_of_lookup hl, if_true]
        exact ih hl

theorem getInodeNumber_walk (h0 : 0 ∈ s.ilist) (path : Str) :
    getInodeNumber path s = (walkKey s.ilist (dirNames path) 0).bind (numberAt s.ilist) := by
  obtain ⟨root,hroot⟩ := Finmap.mem_iff.mp h0
  rw [getInodeNumber_eq hroot]
  exact getInodeLoop_walk hroot

theorem walkKey_append : walkKey t (names++ws) k = (walkKey t names k).bind (walkKey t ws) := by
  induction names generalizing k with
  | nil => rfl
  | cons w names ih =>
    rw [List.cons_append, walkKey, walkKey]
    cases (dirents t k).find? (fun d => d.dName == w) with
    | none => rfl
    | some d =>
      simp only
      split_ifs with hd
      · exact ih
      · rfl

theorem walkKey_single : walkKey t [name] k =
    ((dirents t k).find? (fun d => d.dName == name)).bind
      (fun d => if d.dIno ∈ t then some d.dIno else none) := by
  rw [walkKey]
  cases (dirents t k).find? (fun d => d.dName == name) <;> rfl

theorem segments_creat (h : Pieces names) :
    segments (names.map (fun w => w++slash)).flatten = names++[[]] := by
  induction names with
  | nil => rfl
  | cons w ws ih =>
    have hrest : ((w::ws).map (fun w => w++slash)).flatten =
        w++ '/'::(ws.map (fun w => w++slash)).flatten := by simp [slash]
    rw [hrest, segments_append, segments_of_slash_free w (h w (by simp)).2,
      ih (fun v hv => h v (by simp [hv]))]
    rfl

theorem dirNames_creatPath (h : Pieces names) : dirNames (creatPath names) = names := by
  have hfirst : creatPath names = '/'::(names.map (fun w => w++slash)).flatten := rfl
  rw [dirNames_eq, hfirst, segments_cons_slash, segments_creat h,
    List.filter_cons_of_neg (by simp), List.filter_append, h.filter]
  simp

theorem numberAt_push (hi : t.lookup q = some i) (d : MyDirent) :
    numberAt (t.insert q (pushDirent d i)) = numberAt t := by
  funext k
  by_cases hk : k = q
  · rw [hk, numberAt, numberAt, Finmap.lookup_insert, hi]
    rfl
  · rw [numberAt, numberAt, Finmap.lookup_insert_of_ne _ hk]

theorem mem_push (hi : t.lookup q = some i) (d : MyDirent) :
    k ∈ t.insert q (pushDirent d i) ↔ k ∈ t := by
  rw [Finmap.mem_insert]
  exact or_iff_right_of_imp (fun hk => hk ▸ mem_of_lookup hi)

theorem find?_push (hi : t.lookup q = some i) (d : MyDirent) (name : Str) :
    (dirents (t.insert q (pushDirent d i)) k).find? (fun d => d.dName == name) =
      ((dirents t k).find? (fun d => d.dName == name)).or
        (if k = q ∧ d.dName = name then some d else none) := by
  rw [dirents_insert]
  by_cases hk : k = q
  · subst hk
    rw [Function.update_self, pushDirent_direntBuf, List.find?_append, dirents_of_lookup hi]
    by_cases hd : d.dName = name <;> simp [hd]
  · simp [hk]

theorem walkKey_push (hi : t.lookup q = some i) (d : MyDirent) {e : ℕ}
    (h : walkKey t names k = some e) :
    walkKey (t.insert q (pushDirent d i)) names k = some e := by
  induction names generalizing k with
  | nil => exact h
  | cons w ws ih =>
    rw [walkKey] at h ⊢
    rw [find?_push hi]
    cases hw : (dirents t k).find? (fun d => d.dName == w) with
    | none =>
      rw [hw] at h
      exact nomatch h
    | some d' =>
      rw [hw] at h
      simp only [Option.some_or, mem_push hi] at h ⊢
      split_ifs at h ⊢ with hd
      exact ih h

theorem walkKey_push_last (hi : t.lookup q = some i) (hd : d.dIno ∈ t) {e : ℕ}
    (he : walkKey t names p = some e) :
    walkKey (t.insert q (pushDirent d i)) (names++[d.dName]) p =
      if e = q ∧ (dirents t q).find? (fun x => x.dName == d.dName) = none then some d.dIno
      else walkKey t (names++[d.dName]) p := by
  rw [walkKey_append, walkKey_append, walkKey_push hi d he, he, Option.bind_some, Option.bind_some,
    walkKey_single, walkKey_single, find?_push hi]
  simp only [mem_push hi]
  by_cases heq : e = q
  · subst heq
    cases (dirents t e).find? (fun x => x.dName == d.dName) with
    | none => simp [hd]
    | some d' => simp
  · simp [heq]

def numberNext (s : Fuse) (k : ℕ) : Option ℕ :=
  if k ∈ s.ilist then numberAt s.ilist k else if k = maxInode s+1 then some k else none

def walkNext (s : Fuse) : List Str → ℕ → Option ℕ
  | [], k => some k
  | w::ws, k =>
    match (dirents s.ilist k).find? (fun d => d.dName == w) with
    | none => none
    | some d => if (numberNext s d.dIno).isSome then walkNext s ws d.dIno else none

def lastDirent (path : Str) (k : ℕ) (s : Fuse) : Option MyDirent :=
  (dirents s.ilist k).find? (fun d => d.dName == (dirNames path).getLastD [])

def Finds (path : Str) (n : ℤ) (e : ℕ) (s : Fuse) : Prop :=
  ∃ d, lastDirent path e s = some d ∧ ∃ k : ℕ, numberNext s d.dIno = some k ∧ n = k

def nextInt (s : Fuse) : ℤ := toInt32 ((maxInode s+1:ℕ):ℤ)

/-- With the root as parent: the next number is -1 as an `int` and its key is
taken, or the root has a dirent already that leads to it. -/
def RootWorks (path : Str) (s : Fuse) : Prop :=
  (dirNames path).dropLast = [] ∧
    (nextInt s = anErr ∧ maxInode s+1 ∈ s.ilist ∨ Finds path (nextInt s) 0 s)

/-- With another parent: the walk to it ends at an inode whose number is a key,
and there is a dirent already that leads to the next number as an `int`, or the
inode is under its number, has no dirent of the name, and that `int` is the
number that the key of the new inode has. -/
def ParentWorks (path : Str) (s : Fuse) : Prop :=
  (dirNames path).dropLast ≠ [] ∧
    ∃ e q, walkNext s (dirNames path).dropLast 0 = some e ∧ numberNext s e = some q ∧
      (numberNext s q).isSome = true ∧
        (Finds path (nextInt s) e s ∨ (e = q ∧ lastDirent path q s = none) ∧
          ∃ k : ℕ, numberNext s (maxInode s+1) = some k ∧ nextInt s = k)

theorem inodeInit_root (h0 : 0 ∈ s.ilist) (mode : Mode) : 0 ∈ (inodeInit mode s).2.ilist := by
  rw [inodeInit, insertNew]
  split_ifs
  · exact h0
  · exact Finmap.mem_insert.mpr (Or.inr h0)

theorem inodeInit_mem (mode : Mode) (s : Fuse) : maxInode s+1 ∈ (inodeInit mode s).2.ilist := by
  rw [inodeInit, insertNew]
  split_ifs with hm
  · exact hm
  · exact Finmap.mem_insert.mpr (Or.inl rfl)

theorem inodeInit_same (mode : Mode) :
    (inodeInit mode s).2.ilist = s.ilist ↔ maxInode s+1 ∈ s.ilist := by
  constructor
  · intro h
    rw [← h]
    exact inodeInit_mem mode s
  · intro hm
    rw [inodeInit, insertNew, if_pos hm]

theorem inodeInit_dirents (mode : Mode) (s : Fuse) :
    dirents (inodeInit mode s).2.ilist = dirents s.ilist := by
  rw [inodeInit, insertNew]
  split_ifs with hm
  · rfl
  · exact dirents_insert_new hm rfl

theorem inodeInit_number (mode : Mode) (s : Fuse) :
    numberAt (inodeInit mode s).2.ilist = numberNext s := by
  funext k
  rw [numberNext]
  by_cases hm : maxInode s+1 ∈ s.ilist
  · rw [(inodeInit_same mode).mpr hm]
    by_cases hk : k ∈ s.ilist
    · rw [if_pos hk]
    · have hne : k ≠ maxInode s+1 := fun he => hk (he ▸ hm)
      rw [if_neg hk, if_neg hne, numberAt, Finmap.lookup_eq_none.mpr hk]
      rfl
  · have ht : (inodeInit mode s).2.ilist = s.ilist.insert (maxInode s+1)
        { iIno := maxInode s+1, iMode := mode, node := s.nodes } := by
      rw [inodeInit, insertNew, if_neg hm]
    rw [ht, numberAt]
    by_cases hn : k = maxInode s+1
    · rw [hn, Finmap.lookup_insert, if_neg hm, if_pos rfl]
      rfl
    · rw [Finmap.lookup_insert_of_ne _ hn, if_neg hn]
      by_cases hk : k ∈ s.ilist
      · rw [if_pos hk]
        rfl
      · rw [if_neg hk, Finmap.lookup_eq_none.mpr hk]
        rfl

theorem mem_iff_numberAt : k ∈ t ↔ (numberAt t k).isSome = true := by
  rw [numberAt, Option.isSome_map, Finmap.lookup_isSome]

theorem inodeInit_walk (mode : Mode) (names : List Str) (k : ℕ) :
    walkKey (inodeInit mode s).2.ilist names k = walkNext s names k := by
  induction names generalizing k with
  | nil => rfl
  | cons w ws ih =>
    rw [walkKey, walkNext, inodeInit_dirents]
    simp only [mem_iff_numberAt, inodeInit_number, ih]

def LeadsTo (path : Str) (n : ℤ) (s : Fuse) : Prop :=
  ∃ k : ℕ, getInodeNumber path s = some k ∧ n = k

/-- `my_creat` returns -1 and leaves the table alone, or returns the number that
the path leads to then. -/
def Visible (path : Str) (mode : Mode) (s : Fuse) : Prop :=
  ∃ r s', myCreat path mode s = some (r,s') ∧
    (r = anErr ∧ s'.ilist = s.ilist ∨ LeadsTo path r s')

def pushed (path : Str) (mode : Mode) (s : Fuse) (q : ℕ) (i : MyInode) : Fuse :=
  { (inodeInit mode s).2 with
    ilist := (inodeInit mode s).2.ilist.insert q
      (pushDirent ⟨maxInode s+1,(dirNames path).getLastD []⟩ i) }

theorem myCreat_root (h0 : 0 ∈ s.ilist) (hne : dirNames path ≠ [])
    (htop : (dirNames path).dropLast = []) (mode : Mode) :
    myCreat path mode s = some (nextInt s,(inodeInit mode s).2) := by
  simp only [myCreat, hne, not_not_intro (inodeInit_root h0 mode), htop, if_true, if_false]
  rfl

theorem myCreat_parent (h0 : 0 ∈ s.ilist) (htop : (dirNames path).dropLast ≠ []) (mode : Mode) :
    myCreat path mode s =
      (getInodeNumber (creatPath (dirNames path).dropLast) (inodeInit mode s).2).bind (fun q =>
        ((inodeInit mode s).2.ilist.lookup q).map (fun i =>
          (nextInt s,pushed path mode s q i))) := by
  have hne : dirNames path ≠ [] := fun h => htop (by rw [h]; rfl)
  simp only [myCreat, hne, not_not_intro (inodeInit_root h0 mode), htop, if_false]
  cases getInodeNumber (creatPath (dirNames path).dropLast) (inodeInit mode s).2 with
  | none => rfl
  | some q =>
    simp only [modifyInode, Option.map_map, Option.bind_some]
    rfl

theorem leadsTo_inodeInit (h0 : 0 ∈ s.ilist) (hne : dirNames path ≠ []) {e : ℕ} {n : ℤ}
    (he : walkNext s (dirNames path).dropLast 0 = some e) (mode : Mode) :
    LeadsTo path n (inodeInit mode s).2 ↔ Finds path n e s := by
  have hwalk : walkKey (inodeInit mode s).2.ilist (dirNames path) 0 =
      (lastDirent path e s).bind (fun d => if (numberNext s d.dIno).isSome then some d.dIno
        else none) := by
    rw [← dropLast_getLastD hne, walkKey_append, inodeInit_walk, he, Option.bind_some,
      walkKey_single, inodeInit_dirents, lastDirent]
    simp only [mem_iff_numberAt, inodeInit_number]
  simp only [LeadsTo, Finds, getInodeNumber_walk (inodeInit_root h0 mode), hwalk, inodeInit_number]
  cases lastDirent path e s with
  | none => simp
  | some d =>
    cases hd : numberNext s d.dIno with
    | none => simp [hd]
    | some k => simp [hd]

theorem leadsTo_pushed (hne : dirNames path ≠ []) (h0 : 0 ∈ s.ilist) {e : ℕ} {n : ℤ}
    (he : walkNext s (dirNames path).dropLast 0 = some e)
    (hi : (inodeInit mode s).2.ilist.lookup q = some i) :
    LeadsTo path n (pushed path mode s q i) ↔ Finds path n e s ∨
      (e = q ∧ lastDirent path q s = none) ∧
        ∃ k : ℕ, numberNext s (maxInode s+1) = some k ∧ n = k := by
  set d : MyDirent := ⟨maxInode s+1,(dirNames path).getLastD []⟩ with hd
  have hroot : 0 ∈ (inodeInit mode s).2.ilist := inodeInit_root h0 mode
  have hroot' : 0 ∈ (pushed path mode s q i).ilist := (mem_push hi d).mpr hroot
  have hwalk : walkKey (pushed path mode s q i).ilist (dirNames path) 0 =
      if e = q ∧ lastDirent path q s = none then some (maxInode s+1)
      else walkKey (inodeInit mode s).2.ilist (dirNames path) 0 := by
    have hnames : (dirNames path).dropLast++[d.dName] = dirNames path := dropLast_getLastD hne
    rw [← inodeInit_walk mode] at he
    have hlast := walkKey_push_last (d := d) hi (inodeInit_mem mode s) he
    rw [hnames, inodeInit_dirents] at hlast
    exact hlast
  have hnumber : numberAt (pushed path mode s q i).ilist = numberNext s :=
    (numberAt_push hi d).trans (inodeInit_number mode s)
  have hleads := leadsTo_inodeInit (n := n) h0 hne he mode
  simp only [LeadsTo, getInodeNumber_walk hroot, inodeInit_number] at hleads
  simp only [LeadsTo, getInodeNumber_walk hroot', hwalk, hnumber]
  by_cases hfree : e = q ∧ lastDirent path q s = none
  · have hnot : ¬ Finds path n e s := by
      intro ⟨d',hd',_⟩
      rw [hfree.1, hfree.2] at hd'
      exact nomatch hd'
    rw [or_iff_right hnot, and_iff_right hfree]
    simp only [if_pos hfree, Option.bind_some]
  · simp only [hfree, if_false, hleads, false_and, or_false]

theorem pushed_differs (hi : (inodeInit mode s).2.ilist.lookup q = some i) :
    (pushed path mode s q i).ilist ≠ s.ilist := by
  intro h
  have hmem : maxInode s+1 ∈ (pushed path mode s q i).ilist :=
    (mem_push hi _).mpr (inodeInit_mem mode s)
  rw [h, ← inodeInit_same mode] at hmem
  rw [hmem, ← h, pushed, Finmap.lookup_insert] at hi
  have hlength := congrArg (fun i => i.direntBuf.length) (Option.some.inj hi)
  simp at hlength

theorem visible_root (h0 : 0 ∈ s.ilist) (hne : dirNames path ≠ [])
    (htop : (dirNames path).dropLast = []) (mode : Mode) :
    Visible path mode s ↔ RootWorks path s := by
  have hcall := myCreat_root h0 hne htop mode
  have he : walkNext s (dirNames path).dropLast 0 = some 0 := by
    rw [htop]
    rfl
  have hleads := leadsTo_inodeInit (n := nextInt s) h0 hne he mode
  constructor
  · intro ⟨r,s',hr,hv⟩
    obtain ⟨rfl,rfl⟩ := Prod.mk.inj (Option.some.inj (hcall.symm.trans hr))
    rw [inodeInit_same, hleads] at hv
    exact ⟨htop,hv⟩
  · intro ⟨_,hv⟩
    rw [← inodeInit_same mode, ← hleads] at hv
    exact ⟨_,_,hcall,hv⟩

theorem getInodeNumber_parentOf (h0 : 0 ∈ s.ilist) (path : Str) (mode : Mode) :
    getInodeNumber (creatPath (dirNames path).dropLast) (inodeInit mode s).2 =
      (walkNext s (dirNames path).dropLast 0).bind (numberNext s) := by
  rw [getInodeNumber_walk (inodeInit_root h0 mode),
    dirNames_creatPath (dirNames_pieces path).dropLast, inodeInit_walk, inodeInit_number]

theorem visible_parent (h0 : 0 ∈ s.ilist) (htop : (dirNames path).dropLast ≠ []) (mode : Mode) :
    Visible path mode s ↔ ParentWorks path s := by
  have hne : dirNames path ≠ [] := fun h => htop (by rw [h]; rfl)
  have hcall := myCreat_parent h0 htop mode
  rw [getInodeNumber_parentOf h0] at hcall
  constructor
  · intro ⟨r,s',hr,hv⟩
    rw [hcall] at hr
    obtain ⟨q,hq,hr⟩ := Option.bind_eq_some_iff.mp hr
    obtain ⟨i,hi,hr⟩ := Option.map_eq_some_iff.mp hr
    obtain ⟨rfl,rfl⟩ := Prod.mk.inj hr
    obtain ⟨e,he,hnumber⟩ := Option.bind_eq_some_iff.mp hq
    have hmem : (numberNext s q).isSome = true := by
      rw [← inodeInit_number mode, ← mem_iff_numberAt]
      exact mem_of_lookup hi
    have hleads := hv.resolve_left (fun h => pushed_differs hi h.2)
    rw [leadsTo_pushed hne h0 he hi] at hleads
    exact ⟨htop,e,q,he,hnumber,hmem,hleads⟩
  · intro ⟨_,e,q,he,hnumber,hmem,hv⟩
    rw [← inodeInit_number mode, ← mem_iff_numberAt] at hmem
    obtain ⟨i,hi⟩ := Finmap.mem_iff.mp hmem
    refine ⟨nextInt s,pushed path mode s q i,?_,Or.inr ((leadsTo_pushed hne h0 he hi).mpr hv)⟩
    rw [hcall, he, Option.bind_some, hnumber, Option.bind_some, hi, Option.map_some]

/-- In every table with a root and for every path with a name, the file is
visible exactly on these conditions. -/
theorem creat_visible_iff (h0 : 0 ∈ s.ilist) (hne : dirNames path ≠ []) (mode : Mode) :
    Visible path mode s ↔ RootWorks path s ∨ ParentWorks path s := by
  by_cases htop : (dirNames path).dropLast = []
  · rw [visible_root h0 hne htop]
    exact (or_iff_left (fun h => h.1 htop)).symm
  · rw [visible_parent h0 htop]
    exact (or_iff_right (fun h => htop h.1)).symm

def oneDir : Fuse where
  ilist := (Finmap.singleton 0
    { iIno := 0, iMode := 0, direntBuf := [⟨1,['d']⟩], node := 0 }).insert 1
      { iIno := 1, iMode := 0, node := 1 }
  openFT := ∅
  nodes := 2

theorem creat_visible_oneDir : Visible ['/','d','/','f'] 0 oneDir := by
  refine (creat_visible_iff (by decide) (by decide) 0).mpr (Or.inr ?_)
  exact ⟨by decide,1,1,by decide,by decide,by decide,
    Or.inr ⟨by decide,2,by decide,by decide⟩⟩

/-- A file made in the root cannot be found. -/
theorem creat_visible_fails :
    ¬ ∀ (s : Fuse) (path : Str) (mode : Mode), 0 ∈ s.ilist → dirNames path ≠ [] →
      Visible path mode s := by
  intro hall
  have h0 : 0 ∈ (rootOnly 0).ilist := by decide
  have hv := hall (rootOnly 0) ['/','f'] 0 h0 (by decide)
  obtain ⟨-,⟨hr,-⟩ | ⟨d,hd,-⟩⟩ := (visible_root h0 (by decide) (by decide) 0).mp hv
  · exact absurd hr (by decide)
  · have hnone : lastDirent ['/','f'] 0 (rootOnly 0) = none := by decide
    rw [hnone] at hd
    exact nomatch hd

theorem walkKey_number (hw : WellFormed t) (hn : names ≠ [] ∨ p ∈ t) :
    (walkKey t names p).bind (numberAt t) = walkKey t names p := by
  induction names generalizing p with
  | nil =>
    obtain ⟨i,hi⟩ := Finmap.mem_iff.mp (hn.resolve_left (fun h => h rfl))
    rw [walkKey, Option.bind_some, numberAt, hi, Option.map_some, hw.number p i hi]
  | cons w ws ih =>
    rw [walkKey]
    cases (dirents t p).find? (fun d => d.dName == w) with
    | none => rfl
    | some d =>
      simp only
      split_ifs with hd
      · exact ih (Or.inr hd)
      · rfl

theorem getInodeNumber_creatPath (hw : WellFormed s.ilist) (path : Str) :
    getInodeNumber (creatPath (dirNames path).dropLast) s =
      getInodeNumber (FuseCalls.parentPath (dirNames path).dropLast) s := by
  have hpieces := (dirNames_pieces path).dropLast
  obtain ⟨root,hroot⟩ := hw.lookup_root
  rw [getInodeNumber_eq hroot, getInodeNumber_eq hroot, dirNames_creatPath hpieces,
    dirNames_parentPath hpieces]

theorem lastDirent_none (hw : WellFormed s.ilist) (hne : dirNames path ≠ [])
    (hq : getInodeNumber (creatPath (dirNames path).dropLast) s = some q) :
    lastDirent path q s = none ↔ getInodeNumber path s = none := by
  rw [getInodeNumber_creatPath hw] at hq
  obtain ⟨i,hi⟩ := Finmap.mem_iff.mp (getInodeNumber_mem hw hq)
  rw [lastDirent, dirents_of_lookup hi]
  exact (last_missing hw hne hq hi).symm

theorem numberNext_mem (hw : WellFormed s.ilist) (hk : k ∈ s.ilist) : numberNext s k = some k := by
  obtain ⟨i,hi⟩ := Finmap.mem_iff.mp hk
  rw [numberNext, if_pos hk, numberAt, hi, Option.map_some, hw.number k i hi]

theorem not_finds (hw : WellFormed s.ilist) (hr : nextInt s = ((maxInode s+1:ℕ):ℤ)) (e : ℕ) :
    ¬ Finds path (nextInt s) e s := by
  intro ⟨d,hd,k,hk,hn⟩
  obtain ⟨hmem,-⟩ := hw.ahead e d (List.mem_of_find?_eq_some hd)
  rw [numberNext_mem hw hmem] at hk
  have hle := le_maxInode hw hmem
  rw [← Option.some.inj hk, hr] at hn
  omega

/-- As long as the next number is an `int`, a file is visible exactly if it is
made in a directory other than the root, which is found, and its name is new. -/
theorem creat_visible_wellFormed (hw : WellFormed s.ilist) (hm : maxInode s+1 < 2^31)
    (hne : dirNames path ≠ []) (mode : Mode) :
    Visible path mode s ↔ (dirNames path).dropLast ≠ [] ∧
      (getInodeNumber (creatPath (dirNames path).dropLast) s).isSome = true ∧
        getInodeNumber path s = none := by
  have h0 := hw.root
  have hr : nextInt s = ((maxInode s+1:ℕ):ℤ) := Contents.toInt32_eq_iff.mpr hm
  have hnew : numberNext s (maxInode s+1) = some (maxInode s+1) := by
    rw [numberNext, if_neg (next_notMem hw), if_pos rfl]
  by_cases htop : (dirNames path).dropLast = []
  · rw [visible_root h0 hne htop]
    refine iff_of_false ?_ (fun h => h.1 htop)
    intro ⟨_,hwork⟩
    exact hwork.elim (fun h => next_notMem hw h.2) (not_finds hw hr 0)
  · have hparent : getInodeNumber (creatPath (dirNames path).dropLast) s =
        walkNext s (dirNames path).dropLast 0 := by
      rw [← getInodeNumber_inodeInit hw _ mode, getInodeNumber_parentOf h0, ← inodeInit_walk mode,
        ← inodeInit_number mode]
      exact walkKey_number (hw.inodeInit mode) (Or.inl htop)
    rw [visible_parent h0 htop, hparent]
    constructor
    · intro ⟨_,e,q,he,_,_,hv⟩
      obtain ⟨⟨rfl,hfree⟩,-⟩ := hv.resolve_left (not_finds hw hr e)
      exact ⟨htop,by rw [he]; rfl,(lastDirent_none hw hne (hparent.trans he)).mp hfree⟩
    · intro ⟨_,hsome,hnone⟩
      obtain ⟨q,hq⟩ := Option.isSome_iff_exists.mp hsome
      have hnumber := numberNext_mem hw (getInodeNumber_mem hw (hparent.trans hq))
      have hfree := (lastDirent_none hw hne (hparent.trans hq)).mpr hnone
      exact ⟨htop,q,q,hq,hnumber,by rw [hnumber]; rfl,Or.inr ⟨⟨rfl,hfree⟩,_,hnew,hr⟩⟩

end Bbfs.FuseCreat
