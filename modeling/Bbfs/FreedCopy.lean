import Bbfs.Splitting

/-!
# Entries read out of a destroyed copy

`my_readdir` copies the entries of a directory into a local vector and returns
an address inside it. The copy is destroyed before `lookup` reads the entry
there, so what is read depends on what has become of its memory. Here path
resolution is given once more, over the `split` of the program, with that
memory as an argument. A copy whose memory can no longer be read at all ends
the program and is left out.
-/

set_option autoImplicit false

namespace Bbfs.FreedCopy
open Bbfs.InsertingMap Bbfs.Strings Bbfs.Files Bbfs.Resolve Bbfs.Calls Bbfs.Effects
open Bbfs.Walks

/-- For each lookup of a walk, what the entry at an index of its destroyed copy
reads as. -/
abbrev Copies := ℕ → ℕ → Dirent → Dirent

def intact : Copies := fun _ _ d => d

def firstLost : Copies := fun _ i d => if i = 0 then ⟨[],0⟩ else d

/-- No entry but the dot of a directory is lost, and it is not taken for another. -/
def Spares (m : Copies) : Prop :=
  ∀ k i d, m k i d = d ∨ d.dName = dot ∧ (m k i d).dName = []

/-- What becomes of the memory of a copy before the entries in it are read. -/
inductive Heap where
  | untouched
  | reused
  deriving DecidableEq, Repr

/-- Memory that is used again may hold anything. -/
def Heap.Leaves : Heap → Copies → Prop
  | .untouched, m => m = intact
  | .reused, _ => True

def myReaddir (left : ℕ → Dirent → Dirent) (dirp : MyDir) (s : Fs) : DirRead × MyDir × Fs :=
  let s := s.touch dirp.fh
  let v := (s.file dirp.fh).dentries
  let tmp := dirp.index
  let read := if tmp = v.length then .null else
    match v[tmp]? with
    | some d => .dirent (left tmp d)
    | none => .outside
  (read, { dirp with index := tmp+1 }, s)

def lookupLoop (left : ℕ → Dirent → Dirent) (name : Str) : ℕ → MyDir → Fs → ℕ × Fs
  | 0, _, s => (0, s)
  | fuel+1, dirp, s =>
    match myReaddir left dirp s with
    | (.dirent dp, dirp, s) =>
      if dp.dName = name then (dp.dIno, s) else lookupLoop left name fuel dirp s
    | (_, _, s) => (0, s)

def lookup (left : ℕ → Dirent → Dirent) (name : Str) (fh : ℕ) (s : Fs) : ℕ × Fs :=
  match fopendir fh s with
  | (none, s) => (0, s)
  | (some dirp, s) => lookupLoop left name ((s.file fh).dentries.length+1) dirp s

def findRealLoop : Copies → List Str → ℕ → Fs → ℕ × Fs
  | _, [], fh, s => (fh, s)
  | m, it::v, fh, s =>
    if it = [] then findRealLoop m v fh s
    else if fh ∉ s.entry then (0, s)
    else if (s.file fh).isDir then
      match lookup (m 0) it fh s with
      | (fh, s) => findRealLoop (fun k => m (k+1)) v fh s
    else (0, s)

/-- The first number bounds the loop of `split`. -/
def findRealIno (m : Copies) (fuel : ℕ) (path : Str) (s : Fs) : Option (ℕ × Fs) :=
  (Splitting.split path slash fuel).map (fun v => findRealLoop m v 2 s)

def myLstat (m : Copies) (fuel : ℕ) (path : Str) (s : Fs) : Option ((ℤ × Option Stat) × Fs) :=
  (findRealIno m fuel path s).map (fun out =>
    if out.1 = 0 then ((anErr,none),out.2) else (myFstat out.1 out.2,out.2))

def myReadlink (m : Copies) (fuel : ℕ) (path : Str) (size : ℕ) (s : Fs) : Option (ReadOut × Fs) :=
  match findRealIno m fuel path s with
  | none => none
  | some (fh, s) =>
    if fh = 0 then some (.failed, s) else
    let s := s.touch fh
    if (s.file fh).isLnk = false then some (.failed, s) else
    match myPread fh size 0 s with
    | (.stored ret link, s) => some (if ret = anErr then (.failed, s) else (.stored ok link, s))
    | (out, s) => some (out, s)

def narrow (fh : ℕ) : ℕ := toU64 (toInt32 fh)

/-- The three walks read different copies. -/
def findIno (m : ℕ → Copies) (fuel : ℕ) (path : Str) (s : Fs) : Option (ℕ × Fs) :=
  match findRealIno (m 0) fuel path s with
  | none => none
  | some (fh, s) =>
    let fh := narrow fh
    let s := s.touch fh
    if (s.file fh).isLnk then
      match myReadlink (m 1) fuel path 50 s with
      | none => none
      | some (.stored _ link, s) =>
        (findRealIno (m 2) fuel link s).map (fun out => (narrow out.1, out.2))
      | some (_, s) => some (errIno, s)
    else some (fh, s)

variable {m : Copies} {v : View} {s : Fs} {fuel : ℕ} {path : Str}

def nameLeft (left : ℕ → Dirent → Dirent) (v : View) (name : Str) (fh : ℕ) : ℕ :=
  if (v fh).isDir then
    (((v fh).dentries.mapIdx left).find? (fun d => d.dName == name)).elim 0 Dirent.dIno
  else 0

def walkLeft (v : View) : Copies → List Str → ℕ → ℕ
  | _, [], fh => fh
  | m, it::segs, fh =>
    if it = [] then walkLeft v m segs fh
    else if (v fh).isDir then walkLeft v (fun k => m (k+1)) segs (nameLeft (m 0) v it fh) else 0

/-- Some entry of a copy is read on the way. -/
def reads (v : View) : List Str → ℕ → Bool
  | [], _ => false
  | it::segs, fh =>
    if it = [] then reads v segs fh
    else (v fh).isDir && (!(v fh).dentries.isEmpty || reads v segs 0)

theorem lookupLoop_eq (left : ℕ → Dirent → Dirent) (name : Str) (fh : ℕ) (hs : fh ∈ s.entry)
    (fuel index : ℕ) (h : (s.file fh).dentries.length+1 ≤ fuel+index)
    (hi : index ≤ (s.file fh).dentries.length) :
    lookupLoop left name fuel ⟨fh,index⟩ s =
      (((((s.file fh).dentries.mapIdx left).drop index).find? (fun d => d.dName == name)).elim 0
        Dirent.dIno, s) := by
  induction fuel generalizing index with
  | zero => omega
  | succ fuel ih =>
    rw [lookupLoop]
    simp only [myReaddir, Fs.touch_of_mem hs]
    by_cases he : index = (s.file fh).dentries.length
    · have hdrop : ((s.file fh).dentries.mapIdx left).drop index = [] :=
        List.drop_eq_nil_of_le (by rw [List.length_mapIdx]; omega)
      rw [hdrop]
      simp [he]
    · have hlt : index < (s.file fh).dentries.length := by omega
      have hlt' : index < ((s.file fh).dentries.mapIdx left).length := by
        rw [List.length_mapIdx]
        exact hlt
      simp only [he, if_false, List.getElem?_eq_getElem hlt]
      rw [List.drop_eq_getElem_cons hlt', List.find?_cons, List.getElem_mapIdx]
      by_cases hn : (left index (s.file fh).dentries[index]).dName = name
      · rw [if_pos hn, beq_iff_eq.mpr hn]
        rfl
      · rw [if_neg hn, ih (index+1) (by omega) (by omega), beq_eq_false_iff_ne.mpr hn]

theorem lookup_eq (left : ℕ → Dirent → Dirent) (name : Str) (fh : ℕ) (s : Fs) :
    lookup left name fh s = (nameLeft left s.file name fh, s.touch fh) := by
  have hm : fh ∈ (s.touch fh).entry := mem_touch.mpr (Or.inl rfl)
  unfold lookup fopendir nameLeft
  by_cases hd : (s.file fh).isDir = true
  · simp only [Fs.touch_file, hd, Bool.true_eq_false, if_false, if_true]
    have hl := lookupLoop_eq (s := s.touch fh) left name fh hm ((s.file fh).dentries.length+1) 0
      (by simp) (Nat.zero_le _)
    rw [hl]
    simp
  · simp [hd]

theorem findRealLoop_eq (m : Copies) (segs : List Str) (fh : ℕ) (s : Fs) :
    findRealLoop m segs fh s = (walkLeft s.file m segs fh, s) := by
  induction segs generalizing m fh with
  | nil => rfl
  | cons it segs ih =>
    rw [findRealLoop, walkLeft]
    by_cases he : it = []
    · simp only [he, if_true, ih]
    by_cases hm : fh ∈ s.entry
    · simp only [he, if_false, hm, not_true_eq_false, lookup_eq, Fs.touch_of_mem hm, ih]
      split_ifs <;> rfl
    · have hd : (s.file fh).isDir = false := by
        rw [Fs.file, read_of_notMem hm, File.default_isDir]
      simp [he, hm, hd]

theorem findRealIno_split {segs : List Str} (h : Splitting.split path slash fuel = some segs) :
    findRealIno m fuel path s = some (walkLeft s.file m segs 2, s) := by
  rw [findRealIno, h, Option.map_some, findRealLoop_eq]

theorem nameLeft_intact (name : Str) (fh k : ℕ) :
    nameLeft (intact k) v name fh = nameIn v name fh := by
  have hid : (v fh).dentries.mapIdx (intact k) = (v fh).dentries := by
    rw [show intact k = fun _ d => d from rfl, List.mapIdx_eq_zipIdx_map]
    simp
  rw [nameLeft, nameIn, hid]

/-- While the copies hold their entries, this is the walk over the table. -/
theorem walkLeft_intact (segs : List Str) (fh : ℕ) :
    walkLeft v intact segs fh = walk v fh segs := by
  induction segs generalizing fh with
  | nil => rfl
  | cons it segs ih =>
    have hshift : (fun k => intact (k+1)) = intact := rfl
    rw [walkLeft, walk, hshift, ih, ih, nameLeft_intact]

theorem walkLeft_congr {w : View}
    (h : ∀ k, (w k).isDir = (v k).isDir ∧ (w k).dentries = (v k).dentries) (m : Copies)
    (segs : List Str) (fh : ℕ) : walkLeft w m segs fh = walkLeft v m segs fh := by
  induction segs generalizing m fh with
  | nil => rfl
  | cons it segs ih =>
    have hn : nameLeft (m 0) w it fh = nameLeft (m 0) v it fh := by
      rw [nameLeft, nameLeft, (h fh).1, (h fh).2]
    rw [walkLeft, walkLeft, ih, hn, ih, (h fh).1]

theorem walkLeft_unread (segs : List Str) (fh : ℕ) (h : reads v segs fh = false) :
    walkLeft v m segs fh = walk v fh segs := by
  induction segs generalizing m fh with
  | nil => rfl
  | cons it segs ih =>
    rw [reads] at h
    rw [walkLeft, walk]
    split_ifs at h ⊢ with he hd
    · exact ih fh h
    · simp only [hd, Bool.true_and, Bool.or_eq_false_iff, Bool.not_eq_false',
        List.isEmpty_iff] at h
      have hleft : nameLeft (m 0) v it fh = 0 := by simp [nameLeft, h.1]
      have hname : nameIn v it fh = 0 := by simp [nameIn, h.1]
      rw [hleft, hname]
      exact ih 0 h.2
    · rfl

theorem find?_spared {left : ℕ → Dirent → Dirent} {name : Str}
    (hl : ∀ i d, left i d = d ∨ d.dName = dot ∧ (left i d).dName = []) (h0 : name ≠ [])
    (hname : name ≠ dot) (l : List Dirent) :
    (l.mapIdx left).find? (fun d => d.dName == name) = l.find? (fun d => d.dName == name) := by
  induction l generalizing left with
  | nil => rfl
  | cons d l ih =>
    rw [List.mapIdx_cons, List.find?_cons, List.find?_cons, ih (fun i => hl (i+1))]
    rcases hl 0 d with hsame | ⟨hdot,hlost⟩
    · rw [hsame]
    · rw [hdot, hlost, beq_eq_false_iff_ne.mpr (Ne.symm h0),
        beq_eq_false_iff_ne.mpr (Ne.symm hname)]

/-- A walk over other names than the dot does not miss it. -/
theorem walkLeft_spared {segs : List Str} (hm : Spares m) (h : dot ∉ segs) (fh : ℕ) :
    walkLeft v m segs fh = walk v fh segs := by
  induction segs generalizing m fh with
  | nil => rfl
  | cons it segs ih =>
    obtain ⟨hit,hsegs⟩ := List.ne_and_not_mem_of_not_mem_cons h
    rw [walkLeft, walk]
    by_cases he : it = []
    · rw [if_pos he, if_pos he, ih hm hsegs]
    · have hname : nameLeft (m 0) v it fh = nameIn v it fh := by
        rw [nameLeft, nameIn, find?_spared (hm 0) he (Ne.symm hit)]
      rw [if_neg he, if_neg he, hname, ih (fun k => hm (k+1)) hsegs]

theorem findRealIno_spared {segs : List Str} (hm : Spares m) (hdot : dot ∉ segs)
    (hsplit : Splitting.split path slash fuel = some segs) :
    findRealIno m fuel path s = some (walk s.file 2 segs, s) := by
  rw [findRealIno_split hsplit, walkLeft_spared hm hdot]

/-- Whatever is lost of the dots, this is what the path leads to. -/
def Finds (s : Fs) (path : Str) (fh : ℕ) : Prop :=
  ∀ m, Spares m → ∃ fuel, findRealIno m fuel path s = some (fh, s)

theorem spares_intact : Spares intact := fun _ _ _ => Or.inl rfl

theorem Finds.eq_real {fh : ℕ} (h : Finds s path fh) (hlen : path.length < 2^31) :
    fh = real s.file path := by
  obtain ⟨fuel,hfind⟩ := h intact spares_intact
  cases hsplit : Splitting.split path slash fuel with
  | none => simp [findRealIno, hsplit] at hfind
  | some segs =>
    obtain rfl := Splitting.returns_unique ⟨fuel,hsplit⟩ (Splitting.segments_returned hlen)
    rw [findRealIno_split hsplit, walkLeft_intact] at hfind
    exact (congrArg Prod.fst (Option.some.inj hfind)).symm

theorem finds_real (hdot : dot ∉ segments path) (hlen : path.length < 2^31) :
    Finds s path (real s.file path) := by
  intro m hm
  obtain ⟨fuel,hsplit⟩ := Splitting.segments_returned hlen
  exact ⟨fuel,findRealIno_spared hm hdot hsplit⟩

theorem myReadlink_found (h : findRealIno m fuel path s = some (real s.file path, s)) (size : ℕ) :
    myReadlink m fuel path size s = some (Resolve.myReadlink path size s) := by
  rw [myReadlink, h, Resolve.myReadlink, findRealIno_eq]
  simp only
  split_ifs
  · rfl
  · rfl
  · cases myPread (real s.file path) size 0 (s.touch (real s.file path)) with
    | mk out t => cases out <;> rfl

theorem walkLeft_nameless {segs : List Str} {fh : ℕ} (hd : (v fh).isDir = true)
    (hne : (v fh).dentries ≠ []) (h : reads v segs fh = false) (y : ℕ) :
    walkLeft v m segs y = y := by
  induction segs generalizing m with
  | nil => rfl
  | cons it segs ih =>
    rw [reads] at h
    split_ifs at h with he
    · rw [walkLeft, if_pos he]
      exact ih h
    · simp [hd, hne] at h

theorem nameLeft_any {fh : ℕ} (hd : (v fh).isDir = true) (hne : (v fh).dentries ≠ [])
    (name : Str) (y : ℕ) : nameLeft (fun _ _ => ⟨name,y⟩) v name fh = y := by
  obtain ⟨d,ds,hds⟩ := List.exists_cons_of_ne_nil hne
  rw [nameLeft, if_pos hd, hds, List.mapIdx_cons, List.find?_cons, beq_self_eq_true]
  rfl

/-- A walk that reads an entry may end anywhere. -/
theorem walkLeft_any {segs : List Str} {fh : ℕ} (h : reads v segs fh = true) (y : ℕ) :
    ∃ m, walkLeft v m segs fh = y := by
  induction segs generalizing fh with
  | nil => exact absurd h Bool.false_ne_true
  | cons it segs ih =>
    rw [reads] at h
    split_ifs at h with he
    · obtain ⟨m,hm⟩ := ih h
      exact ⟨m,by rw [walkLeft, if_pos he, hm]⟩
    obtain ⟨hd,h⟩ := Bool.and_eq_true_iff.mp h
    by_cases hne : (v fh).dentries = []
    · have h0 : reads v segs 0 = true := by simpa [hne] using h
      obtain ⟨m,hm⟩ := ih h0
      have hleft : nameLeft (m 0) v it fh = 0 := by simp [nameLeft, hne]
      refine ⟨fun k => m (k-1),?_⟩
      rw [walkLeft, if_neg he, if_pos hd]
      simpa [hleft] using hm
    cases hr : reads v segs fh with
    | true =>
      -- The lookup stays in the directory, and the rest may end anywhere.
      obtain ⟨m,hm⟩ := ih hr
      refine ⟨fun k => if k = 0 then fun _ _ => ⟨it,fh⟩ else m (k-1),?_⟩
      rw [walkLeft, if_neg he, if_pos hd]
      simp only [if_true, nameLeft_any hd hne it fh, Nat.add_eq_zero_iff, one_ne_zero, and_false,
        if_false, Nat.add_sub_cancel]
      exact hm
    | false =>
      refine ⟨fun _ _ _ => ⟨it,y⟩,?_⟩
      rw [walkLeft, if_neg he, if_pos hd, nameLeft_any hd hne it y]
      exact walkLeft_nameless hd hne hr y

/-- The walk gives what the table says. -/
def Told (heap : Heap) (v : View) (segs : List Str) : Prop :=
  heap = .untouched ∨ reads v segs 2 = false

instance (heap : Heap) (v : View) (segs : List Str) : Decidable (Told heap v segs) :=
  inferInstanceAs (Decidable (_ ∨ _))

theorem Told.walk_eq {heap : Heap} {segs : List Str} (h : Told heap v segs) (hm : heap.Leaves m) :
    walkLeft v m segs 2 = walk v 2 segs := by
  rcases h with rfl | h
  · rw [show m = intact from hm]
    exact walkLeft_intact segs 2
  · exact walkLeft_unread segs 2 h

theorem walk_of_not_told {heap : Heap} {segs : List Str} (h : ¬Told heap v segs) (y : ℕ) :
    ∃ m, heap.Leaves m ∧ walkLeft v m segs 2 = y := by
  obtain ⟨hheap,hreads⟩ := not_or.mp h
  obtain ⟨m,hm⟩ := walkLeft_any (Bool.eq_true_of_not_eq_false hreads) y
  refine ⟨m,?_,hm⟩
  cases heap with
  | untouched => exact absurd rfl hheap
  | reused => trivial

/-- A walk that only ever ends at one number, or at 0, gives what the table says. -/
theorem told_of_constant {heap : Heap} {segs : List Str} {y : ℕ}
    (h : ∀ m, heap.Leaves m → walkLeft v m segs 2 ≠ 0 → walkLeft v m segs 2 = y) :
    Told heap v segs := by
  by_contra hnot
  obtain ⟨m,hm,hy⟩ := walk_of_not_told hnot (y+1)
  have hsame := h m hm (by omega)
  omega

def followed (v : View) (fuel fh : ℕ) : Option ℕ :=
  if (v fh).isLnk then
    if fh = 0 then some errIno
    else
      match linkText (v fh) with
      | none => some errIno
      | some t => (Splitting.split t slash fuel).map (fun segs => narrow (walk v 2 segs))
  else some fh

theorem narrow_eq {fh : ℕ} (h : fh < 2^31 ∨ fh = errIno) : narrow fh = fh := by
  rcases h with h | rfl
  · have hint : toInt32 fh = fh := toInt32_of_range (by omega) (by omega)
    rw [narrow, hint, toU64]
    omega
  · decide

theorem narrow_walk (hs : Settled s) (segs : List Str) :
    narrow (walk s.file 2 segs) = walk s.file 2 segs := by
  have hlow := hs.low
  have hhigh := hs.high
  apply narrow_eq
  rcases walk_origin (v := s.file) segs 2 with h0 | h2 | ⟨k,-,d,hd,hi⟩
  · omega
  · omega
  · rw [← hi]
    exact (hs.bounded k d hd).imp_left (fun hlt => by omega)

theorem Heap.leaves_intact (heap : Heap) : heap.Leaves intact := by
  cases heap with
  | untouched => rfl
  | reused => trivial

theorem reads_not_dir {fh : ℕ} (hd : (v fh).isDir = false) (segs : List Str) :
    reads v segs fh = false := by
  induction segs with
  | nil => rfl
  | cons it segs ih =>
    rw [reads]
    split_ifs
    · exact ih
    · simp [hd]

theorem walk_unread (h0 : (v 0).isDir = false) {segs : List Str} {fh : ℕ}
    (h : reads v segs fh = false) : walk v fh segs = fh ∨ walk v fh segs = 0 := by
  induction segs with
  | nil => exact Or.inl rfl
  | cons it segs ih =>
    rw [reads] at h
    rw [walk]
    split_ifs at h ⊢ with he hd
    · exact ih h
    · simp only [hd, Bool.true_and, Bool.or_eq_false_iff, Bool.not_eq_false',
        List.isEmpty_iff] at h
      have hname : nameIn v it fh = 0 := by simp [nameIn, h.1]
      rw [hname]
      exact Or.inr (walk_zero h0 segs)
    · exact Or.inr rfl

theorem told_link {heap : Heap} {segs : List Str} (hs : Settled s) (h : Told heap s.file segs)
    (hl : (s.file (walk s.file 2 segs)).isLnk = true) (segs' : List Str) :
    Told heap s.file segs' := by
  have h0 := untyped hs.sentinel
  refine h.imp_right ?_
  intro hreads
  rcases walk_unread h0.1 hreads with h2 | hz
  · rw [h2] at hl
    refine reads_not_dir (Bool.eq_false_iff.mpr ?_) segs'
    intro hd
    exact absurd hl (by simp [((type_exclusive _).1 hd).2])
  · rw [hz, h0.2.2] at hl
    exact absurd hl Bool.false_ne_true

theorem findRealIno_told {heap : Heap} {segs : List Str} (ht : Told heap s.file segs)
    (hm : heap.Leaves m) (hsplit : Splitting.split path slash fuel = some segs) :
    findRealIno m fuel path s = some (walk s.file 2 segs, s) := by
  rw [findRealIno_split hsplit, ht.walk_eq hm]

theorem findIno_told {heap : Heap} {m : ℕ → Copies} {segs : List Str} (hs : Settled s)
    (ht : Told heap s.file segs) (hm : ∀ k, heap.Leaves (m k))
    (hsplit : Splitting.split path slash fuel = some segs) :
    (findIno m fuel path s).map Prod.fst = followed s.file fuel (walk s.file 2 segs) := by
  have hn := narrow_walk hs segs
  have hzero := (untyped hs.sentinel).2.2
  have hreal := findRealIno_told ht (hm 0) hsplit
  have htold := told_link hs ht
  generalize hfh : walk s.file 2 segs = fh at hn hreal htold ⊢
  have htouch : (s.touch fh).file = s.file := Fs.touch_file s fh
  have htt : (s.touch fh).touch fh = s.touch fh := Fs.touch_of_mem (mem_touch.mpr (Or.inl rfl))
  rw [findIno, hreal, followed]
  simp only [hn, htouch]
  by_cases hl : (s.file fh).isLnk = true
  · have h0 : fh ≠ 0 := by
      rintro rfl
      exact absurd hl (by simp [hzero])
    have hagain : findRealIno (m 1) fuel path (s.touch fh) = some (fh, s.touch fh) := by
      have h1 := findRealIno_told (s := s.touch fh) (by rw [htouch]; exact ht) (hm 1) hsplit
      rwa [htouch, hfh] at h1
    obtain ⟨ret,hret,hread⟩ := myPread_link
      (show ((s.touch fh).file fh).isLnk = true by rw [htouch]; exact hl)
    rw [htouch, htt] at hread
    have hlink : myReadlink (m 1) fuel path 50 (s.touch fh) =
        some ((linkText (s.file fh)).elim .failed (fun t => .stored ok t), s.touch fh) := by
      rw [myReadlink, hagain]
      simp only [h0, if_false, htt, htouch, hl, Bool.true_eq_false, hread]
      cases linkText (s.file fh) with
      | none => rfl
      | some t => simp [hret]
    simp only [hl, if_true, hlink, h0, if_false]
    cases linkText (s.file fh) with
    | none => rfl
    | some t =>
      cases hsplit' : Splitting.split t slash fuel with
      | none => simp [findRealIno, hsplit']
      | some segs' =>
        have h2 := findRealIno_told (s := s.touch fh) (by rw [htouch]; exact htold hl segs') (hm 2)
          hsplit'
        simp [h2, hsplit', htouch]
  · simp [hl]

end Bbfs.FreedCopy
