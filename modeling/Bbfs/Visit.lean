import Bbfs.Directories

/-!
# The recursive listing

`visit` reads a directory, stats each name in it and calls itself on the names
whose mode says directory. What it prints is left out. For a dangling entry
`my_fstat` leaves its buffer as it was: `stale` is what the mode field then
happens to hold, by directory path and index. Entries are read as if the copies
of `my_readdir` were intact.
-/

set_option autoImplicit false

namespace Bbfs.Visit
open Bbfs.Strings Bbfs.Files Bbfs.Resolve Bbfs.Calls Bbfs.Session Bbfs.Walks Bbfs.Effects
open Bbfs.Outcomes Bbfs.Numbers Bbfs.Directories

def child (root name : Str) : Str :=
  root++((if root.getLast? = some '/' then [] else slash)++name)

def fstatMode (stale : Mode) (fh : ℕ) (s : Fs) : Mode := (myFstat fh s).2.elim stale Stat.stMode

def readLoop (stale : ℕ → Mode) (root : Str) : ℕ → MyDir → Fs → (List Str × List Str) × Fs
  | 0, _, s => (([], []), s)
  | fuel+1, dirp, s =>
    match myReaddir dirp s with
    | (.dirent dp, dirp', s) =>
      match readLoop stale root fuel dirp' s with
      | ((file, hardSubdirectory), s') =>
        if IsDots dp.dName then ((file, hardSubdirectory), s')
        else if S_ISDIR (fstatMode (stale dirp.index) dp.dIno s) then
          ((child root dp.dName::file, child root dp.dName::hardSubdirectory), s')
        else ((child root dp.dName::file, hardSubdirectory), s')
    | (_, _, s) => (([], []), s)

def statLoop : List Str → Fs → ℤ × Fs
  | [], s => (ok, s)
  | filename::file, s =>
    match myLstat filename s with
    | ((err, _), s) => if err ≠ 0 then (anErr, s) else statLoop file s

/-- The first argument bounds the depth of the recursion. -/
def visit (stale : Str → ℕ → Mode) : ℕ → Str → Fs → Option (ℤ × Fs)
  | 0, _, _ => none
  | fuel+1, root, s =>
    match myOpendir root s with
    | (none, s) => some (anErr, s)
    | (some dirp, s) =>
      match readLoop (stale root) root ((s.file dirp.fh).dentries.length+1) dirp s with
      | ((file, hardSubdirectory), s) =>
        match statLoop (file.mergeSort (· ≤ ·)) s with
        | (err, s) =>
          if err ≠ 0 then some (anErr, s) else
            (hardSubdirectory.foldlM (fun s it => (visit stale fuel it s).map Prod.snd) s).map
              (fun s => (ok, s))

variable {v : View} {n x : ℕ} {root name : Str} {s : Fs}

theorem real_child (root : Str) (h0 : (v 0).isDir = false) (hs : '/' ∉ name) :
    real v (child root name) = if name = [] then real v root
      else if (v (real v root)).isDir then nameIn v name (real v root) else 0 := by
  have hone : ∀ k, walk v k (segments name) = if name = [] then k
      else if (v k).isDir then nameIn v name k else 0 := by
    intro k
    rw [segments_of_slash_free name hs, walk]
    rfl
  by_cases hl : root.getLast? = some '/'
  · obtain ⟨q,rfl⟩ := List.getLast?_eq_some_iff.mp hl
    have hq : real v (q++['/']) = real v q := real_append h0 q []
    have hc : child (q++['/']) name = q++ '/'::name := by
      simp [child]
    rw [hc, real_append h0, hone, hq]
  · have hc : child root name = root++ '/'::name := by
      simp [child, hl, slash]
    rw [hc, real_append h0, hone]

def listed (root : Str) (ds : List Dirent) : List Str :=
  (ds.filter (fun d => ¬ IsDots d.dName)).map (fun d => child root d.dName)

theorem mem_listed {ds : List Dirent} {p : Str} :
    p ∈ listed root ds ↔ ∃ d ∈ ds, ¬ IsDots d.dName ∧ child root d.dName = p := by
  simp [listed, and_assoc]

theorem listed_cons (d : Dirent) (ds : List Dirent) :
    listed root (d::ds) =
      if IsDots d.dName then listed root ds else child root d.dName::listed root ds := by
  by_cases hd : IsDots d.dName <;> simp [listed, hd]

theorem readLoop_eq (stale : ℕ → Mode) (root : Str) (fh : ℕ) (s : Fs) (hs : fh ∈ s.entry)
    (fuel index : ℕ) (h : (s.file fh).dentries.length+1 ≤ fuel+index)
    (hi : index ≤ (s.file fh).dentries.length) :
    ∃ sub, readLoop stale root fuel ⟨fh,index⟩ s =
        ((listed root ((s.file fh).dentries.drop index), sub), s) ∧
      sub ⊆ listed root ((s.file fh).dentries.drop index) := by
  induction fuel generalizing index with
  | zero => omega
  | succ fuel ih =>
    rw [readLoop]
    simp only [myReaddir, Fs.touch_of_mem hs]
    by_cases he : index = (s.file fh).dentries.length
    · refine ⟨[],?_,by simp⟩
      simp [he, listed]
    · have hlt : index < (s.file fh).dentries.length := by omega
      obtain ⟨sub,hsub,hsubset⟩ := ih (index+1) (by omega) (by omega)
      simp only [he, if_false, List.getElem?_eq_getElem hlt, hsub,
        List.drop_eq_getElem_cons hlt, listed_cons]
      split_ifs
      · exact ⟨sub,rfl,hsubset⟩
      · exact ⟨_,rfl,List.cons_subset_cons _ hsubset⟩
      · exact ⟨sub,rfl,List.subset_cons_of_subset _ hsubset⟩

theorem statLoop_state (file : List Str) (s : Fs) :
    statLoop file s = (ok,s) ∨ statLoop file s = (anErr,s) := by
  induction file with
  | nil => exact Or.inl rfl
  | cons filename file ih =>
    rw [statLoop]
    simp only [myLstat_state]
    split_ifs
    · exact Or.inr rfl
    · exact ih

theorem statLoop_missing {file : List Str} {filename : Str} (hm : filename ∈ file)
    (h0 : real s.file filename = 0) : statLoop file s = (anErr,s) := by
  induction file with
  | nil => simp at hm
  | cons p file ih =>
    rw [statLoop]
    rcases List.mem_cons.mp hm with rfl | hm
    · simp [myLstat, findRealIno_eq, h0, anErr]
    · simp only [myLstat_state]
      split_ifs
      · rfl
      · exact ih hm

/-- The recursion on a path ends, in every state with this table, and leaves
the table. -/
def Ends (stale : Str → ℕ → Mode) (v : View) (root : Str) : Prop :=
  ∃ N, ∀ fuel, N ≤ fuel → ∀ s : Fs, s.file = v →
    ∃ r s', visit stale fuel root s = some (r,s') ∧ s'.file = v

variable {stale : Str → ℕ → Mode}

theorem visit_closed (stale : Str → ℕ → Mode) (hs : s.file = v)
    (hd : (v (resolve v root)).isDir = false) (fuel : ℕ) :
    ∃ s', visit stale (fuel+1) root s = some (anErr,s') ∧ s'.file = v := by
  refine ⟨(s.touch (real v root)).touch (resolve v root),?_,by simp [hs]⟩
  simp [visit, myOpendir, findIno_eq, fopendir, hs, hd]

theorem visit_open (stale : Str → ℕ → Mode) (hs : s.file = v)
    (hd : (v (resolve v root)).isDir = true) (fuel : ℕ) :
    ∃ t sub, t.file = v ∧ sub ⊆ listed root (v (resolve v root)).dentries ∧
      visit stale (fuel+1) root s =
        if (statLoop ((listed root (v (resolve v root)).dentries).mergeSort (· ≤ ·)) t).1 ≠ 0 then
          some (anErr,t)
        else (sub.foldlM (fun s it => (visit stale fuel it s).map Prod.snd) t).map
          (fun s => (ok,s)) := by
  have ht : ((s.touch (real v root)).touch (resolve v root)).file = v := by
    simp [hs]
  have hm : resolve v root ∈ ((s.touch (real v root)).touch (resolve v root)).entry :=
    InsertingMap.mem_touch.mpr (Or.inl rfl)
  obtain ⟨sub,hread,hsub⟩ := readLoop_eq (stale root) root (resolve v root)
    ((s.touch (real v root)).touch (resolve v root)) hm
    ((v (resolve v root)).dentries.length+1) 0 (by rw [ht]) (Nat.zero_le _)
  rw [ht, List.drop_zero] at hread hsub
  refine ⟨_,sub,ht,hsub,?_⟩
  rw [visit]
  simp only [myOpendir, findIno_eq, hs, fopendir, Fs.touch_file, hd, Bool.true_eq_false, if_false,
    hread]
  rcases statLoop_state ((listed root (v (resolve v root)).dentries).mergeSort (· ≤ ·))
    ((s.touch (real v root)).touch (resolve v root)) with hl | hl
  · simp only [hl]
  · simp only [hl]

theorem fold_ends {subs : List Str} {N fuel : ℕ} (hN : N ≤ fuel)
    (h : ∀ p ∈ subs, ∀ fuel, N ≤ fuel → ∀ s : Fs, s.file = v →
      ∃ r s', visit stale fuel p s = some (r,s') ∧ s'.file = v) (hs : s.file = v) :
    ∃ s', subs.foldlM (fun s it => (visit stale fuel it s).map Prod.snd) s = some s' ∧
      s'.file = v := by
  induction subs generalizing s with
  | nil => exact ⟨s,rfl,hs⟩
  | cons p subs ih =>
    obtain ⟨r,t,hv,ht⟩ := h p List.mem_cons_self fuel hN s hs
    obtain ⟨s',hf,hs'⟩ := ih (fun q hq => h q (List.mem_cons_of_mem p hq)) ht
    refine ⟨s',?_,hs'⟩
    rw [List.foldlM_cons, hv]
    exact hf

theorem ends_all {subs : List Str} (h : ∀ p ∈ subs, Ends stale v p) :
    ∃ N, ∀ p ∈ subs, ∀ fuel, N ≤ fuel → ∀ s : Fs, s.file = v →
      ∃ r s', visit stale fuel p s = some (r,s') ∧ s'.file = v := by
  induction subs with
  | nil => exact ⟨0,by simp⟩
  | cons p subs ih =>
    obtain ⟨N,hN⟩ := ih (fun q hq => h q (List.mem_cons_of_mem p hq))
    obtain ⟨M,hM⟩ := h p List.mem_cons_self
    refine ⟨max M N,?_⟩
    intro q hq fuel hf
    rcases List.mem_cons.mp hq with rfl | hq
    · exact hM fuel (by omega)
    · exact hN q hq fuel (by omega)

theorem ends_of_children (h : ∀ d ∈ (v (resolve v root)).dentries, ¬ IsDots d.dName →
    Ends stale v (child root d.dName)) : Ends stale v root := by
  have hlisted : ∀ p ∈ listed root (v (resolve v root)).dentries, Ends stale v p := by
    intro p hp
    obtain ⟨d,hd,hn,rfl⟩ := mem_listed.mp hp
    exact h d hd hn
  obtain ⟨N,hN⟩ := ends_all hlisted
  refine ⟨N+1,?_⟩
  intro fuel hf s hs
  obtain ⟨fuel,rfl⟩ := Nat.exists_eq_add_of_le' (Nat.le_trans (Nat.le_add_left 1 N) hf)
  by_cases hd : (v (resolve v root)).isDir = true
  · obtain ⟨t,sub,ht,hsub,hv⟩ := visit_open stale hs hd fuel
    rw [hv]
    split_ifs
    · exact ⟨_,t,rfl,ht⟩
    · obtain ⟨s',hfold,hs'⟩ := fold_ends (Nat.le_of_succ_le_succ hf) (fun p hp => hN p (hsub hp)) ht
      rw [hfold]
      exact ⟨_,s',rfl,hs'⟩
  · obtain ⟨s',hv,hs'⟩ := visit_closed stale hs (by simpa using hd) fuel
    exact ⟨_,s',hv,hs'⟩

/-- A path that leads to a directory only through a link is listed at most
once: the names under it resolve to nothing. -/
theorem ends_of_blocked (h : Numbers v n) (hr : (v (real v root)).isDir = false)
    (hname : ∀ k, (v k).isDir = true → ∀ d ∈ (v k).dentries, d.dName ≠ []) :
    Ends stale v root := by
  have h0 := (untyped h.sentinel).1
  refine ⟨1,?_⟩
  intro fuel hf s hs
  obtain ⟨fuel,rfl⟩ := Nat.exists_eq_add_of_le' hf
  by_cases hd : (v (resolve v root)).isDir = true
  · obtain ⟨t,sub,ht,hsub,hv⟩ := visit_open stale hs hd fuel
    rw [hv]
    by_cases hl : listed root (v (resolve v root)).dentries = []
    · rw [hl, List.subset_nil] at hsub
      subst hsub
      split_ifs
      · exact ⟨_,t,rfl,ht⟩
      · exact ⟨_,t,rfl,ht⟩
    · obtain ⟨p,hp⟩ := List.exists_mem_of_ne_nil _ hl
      obtain ⟨d,hm,-,rfl⟩ := mem_listed.mp hp
      have hmiss : real t.file (child root d.dName) = 0 := by
        rw [ht, real_child root h0 (h.slashFree _ d hm), if_neg (hname _ hd d hm), hr]
        rfl
      have herr : anErr ≠ 0 := by decide
      rw [statLoop_missing (List.mem_mergeSort.mpr hp) hmiss, if_pos herr]
      exact ⟨_,t,rfl,ht⟩
  · obtain ⟨s',hv,hs'⟩ := visit_closed stale hs (by simpa using hd) fuel
    exact ⟨_,s',hv,hs'⟩

def Edge (v : View) (x y : ℕ) : Prop := Holds v x y ∧ (v y).isDir = true

/-- From a directory below which no endless chain of names starts the
recursion ends. -/
theorem ends_of_acc (h : Numbers v n)
    (hname : ∀ k, (v k).isDir = true → ∀ d ∈ (v k).dentries, d.dName ≠ [])
    (hx : Acc (flip (Edge v)) x) (hr : real v root = x) : Ends stale v root := by
  have h0 := (untyped h.sentinel).1
  induction hx generalizing root with
  | intro x _ ih =>
    by_cases hd : (v x).isDir = true
    · subst hr
      apply ends_of_children
      rw [resolve, follow_dir hd]
      intro d hm hn
      have hc := real_child root h0 (h.slashFree _ d hm)
      rw [if_neg (hname _ hd d hm), if_pos hd] at hc
      by_cases hcd : (v (real v (child root d.dName))).isDir = true
      · refine ih _ ?_ rfl
        rcases nameIn_origin (v := v) d.dName (real v root) with hz | ⟨-,e,he,hen,hei⟩
        · rw [hc, hz, h0] at hcd
          exact absurd hcd Bool.false_ne_true
        · exact ⟨⟨hd,e,he,hen ▸ hn,hei.trans hc.symm⟩,hcd⟩
      · exact ends_of_blocked h (by simpa using hcd) hname
    · exact ends_of_blocked h (by rw [hr]; simpa using hd) hname

end Bbfs.Visit
