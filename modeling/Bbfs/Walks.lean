import Bbfs.Resolve

/-!
# Walks over the table

What a walk depends on, where its result comes from, and how it runs over
concatenated segments. The handle 0 of a failed lookup ends a walk as long as
the file read there is not a directory; a number that no entry holds is never
reached.
-/

set_option autoImplicit false

namespace Bbfs.Walks
open Bbfs.Strings Bbfs.Files Bbfs.Resolve

variable {v v' : View}

theorem walk_congr (h : ∀ k, (v' k).isDir = (v k).isDir ∧ (v' k).dentries = (v k).dentries)
    (segs : List Str) (fh : ℕ) : walk v' fh segs = walk v fh segs := by
  induction segs generalizing fh with
  | nil => rfl
  | cons it segs ih =>
    have hn : nameIn v' it fh = nameIn v it fh := by
      rw [nameIn, nameIn, (h fh).1, (h fh).2]
    rw [walk, walk, ih, hn, ih, (h fh).1]

theorem real_congr (h : ∀ k, (v' k).isDir = (v k).isDir ∧ (v' k).dentries = (v k).dentries)
    (path : Str) : real v' path = real v path :=
  walk_congr h (segments path) 2

theorem follow_congr (h : ∀ k, (v' k).isDir = (v k).isDir ∧ (v' k).dentries = (v k).dentries)
    (hl : ∀ k, (v' k).isLnk = (v k).isLnk ∧ ((v k).isLnk = true → (v' k).data = (v k).data))
    (fh : ℕ) : follow v' fh = follow v fh := by
  have hr : real v' = real v := funext (real_congr h)
  rw [follow, follow, (hl fh).1, hr]
  by_cases hk : (v fh).isLnk = true
  · rw [linkText, linkText, (hl fh).2 hk]
  · simp [hk]

theorem resolve_congr (h : ∀ k, (v' k).isDir = (v k).isDir ∧ (v' k).dentries = (v k).dentries)
    (hl : ∀ k, (v' k).isLnk = (v k).isLnk ∧ ((v k).isLnk = true → (v' k).data = (v k).data))
    (path : Str) : resolve v' path = resolve v path := by
  rw [resolve, resolve, real_congr h, follow_congr h hl]

theorem walk_zero (h : (v 0).isDir = false) (segs : List Str) : walk v 0 segs = 0 := by
  induction segs with
  | nil => rfl
  | cons it segs ih => simp [walk, ih, h]

theorem walk_not_dir {fh : ℕ} (h : (v fh).isDir = false) (segs : List Str) :
    walk v fh segs = fh ∨ walk v fh segs = 0 := by
  induction segs with
  | nil => exact Or.inl rfl
  | cons it segs ih =>
    by_cases he : it = []
    · simpa [walk, he] using ih
    · simp [walk, he, h]

theorem walk_append (h : (v 0).isDir = false) (xs ys : List Str) (fh : ℕ) :
    walk v fh (xs++ys) = walk v (walk v fh xs) ys := by
  induction xs generalizing fh with
  | nil => rfl
  | cons it xs ih =>
    rw [List.cons_append, walk, walk]
    split_ifs
    · exact ih fh
    · exact ih _
    · exact (walk_zero h ys).symm

theorem walk_parentPath (fh : ℕ) (path : Str) :
    walk v fh (segments (parentPath path)) = walk v fh (segments path).dropLast := by
  rcases segments_parentPath path with h | ⟨h,h'⟩
  · rw [h]
  · rw [h, h']
    rfl

theorem real_parentPath (h : (v 0).isDir = false) (path : Str) :
    real v path = if tail path = [] then real v (parentPath path)
      else if (v (real v (parentPath path))).isDir then
        nameIn v (tail path) (real v (parentPath path)) else 0 := by
  have hp : real v path = walk v (real v (parentPath path)) [tail path] := by
    rw [real, segments_eq_append, walk_append h, ← walk_parentPath]
    rfl
  rw [hp, walk]
  rfl

theorem real_cons_slash (path : Str) : real v ('/'::path) = real v path := by
  rw [real, segments_cons_slash, walk, if_pos rfl, real]

theorem resolve_cons_slash (path : Str) : resolve v ('/'::path) = resolve v path := by
  rw [resolve, real_cons_slash, resolve]

theorem real_append (h : (v 0).isDir = false) (p q : Str) :
    real v (p++ '/'::q) = walk v (real v p) (segments q) := by
  rw [real, segments_append, walk_append h]
  rfl

theorem follow_not_lnk {fh : ℕ} (h : (v fh).isLnk = false) : follow v fh = fh := by
  simp [follow, h]

theorem follow_dir {fh : ℕ} (h : (v fh).isDir = true) : follow v fh = fh :=
  follow_not_lnk ((type_exclusive (v fh)).1 h).2

theorem resolve_not_lnk {path : Str} (h : (v (real v path)).isLnk = false) :
    resolve v path = real v path :=
  follow_not_lnk h

theorem resolve_dir {path : Str} (h : (v (real v path)).isDir = true) :
    resolve v path = real v path :=
  follow_dir h

theorem walk_append_of_ne (xs ys : List Str) (fh : ℕ) (h : walk v fh (xs++ys) ≠ 0) :
    walk v fh (xs++ys) = walk v (walk v fh xs) ys := by
  induction xs generalizing fh with
  | nil => rfl
  | cons it xs ih =>
    rw [List.cons_append, walk] at h ⊢
    rw [walk]
    split_ifs at h ⊢
    · exact ih fh h
    · exact ih _ h
    · exact absurd rfl h

theorem real_found {path : Str} (ht : tail path ≠ []) (hr : real v path ≠ 0) :
    (v (real v (parentPath path))).isDir = true ∧
      nameIn v (tail path) (real v (parentPath path)) = real v path := by
  have hwalk : real v path = walk v (real v (parentPath path)) [tail path] := by
    rw [real, segments_eq_append] at hr ⊢
    rw [walk_append_of_ne _ _ _ hr, real, walk_parentPath]
  rw [hwalk, walk, if_neg ht] at hr ⊢
  split_ifs at hr ⊢ with hd
  · exact ⟨hd,rfl⟩
  · exact absurd rfl hr

theorem nameIn_origin (name : Str) (fh : ℕ) :
    nameIn v name fh = 0 ∨ (v fh).isDir = true ∧
      ∃ d ∈ (v fh).dentries, d.dName = name ∧ d.dIno = nameIn v name fh := by
  unfold nameIn
  split_ifs with hd
  · cases hf : (v fh).dentries.find? (fun d => d.dName == name) with
    | none => exact Or.inl rfl
    | some d =>
      have hn : d.dName = name := by simpa using List.find?_some hf
      exact Or.inr ⟨hd,d,List.mem_of_find?_eq_some hf,hn,rfl⟩
  · exact Or.inl rfl

theorem walk_origin (segs : List Str) (fh : ℕ) :
    walk v fh segs = 0 ∨ walk v fh segs = fh ∨
      ∃ k, (v k).isDir = true ∧ ∃ d ∈ (v k).dentries, d.dIno = walk v fh segs := by
  induction segs generalizing fh with
  | nil => exact Or.inr (Or.inl rfl)
  | cons it segs ih =>
    rw [walk]
    split_ifs with he hd
    · exact ih fh
    · rcases ih (nameIn v it fh) with h | h | h
      · exact Or.inl h
      · rcases nameIn_origin (v := v) it fh with h0 | ⟨hk,d,hm,-,hi⟩
        · exact Or.inl (h.trans h0)
        · exact Or.inr (Or.inr ⟨fh,hk,d,hm,hi.trans h.symm⟩)
      · exact Or.inr (Or.inr h)
    · exact Or.inl rfl

theorem walk_named (segs : List Str) (fh : ℕ) :
    walk v fh segs = 0 ∨ walk v fh segs = fh ∨
      ∃ name k, (v k).isDir = true ∧ nameIn v name k = walk v fh segs := by
  induction segs generalizing fh with
  | nil => exact Or.inr (Or.inl rfl)
  | cons it segs ih =>
    rw [walk]
    split_ifs with he hd
    · exact ih fh
    · rcases ih (nameIn v it fh) with h | h | h
      · exact Or.inl h
      · exact Or.inr (Or.inr ⟨it,fh,hd,h.symm⟩)
      · exact Or.inr (Or.inr h)
    · exact Or.inl rfl

theorem real_origin (path : Str) :
    real v path = 0 ∨ real v path = 2 ∨
      ∃ k, (v k).isDir = true ∧ ∃ d ∈ (v k).dentries, d.dIno = real v path :=
  walk_origin (segments path) 2

theorem resolve_real (path : Str) :
    resolve v path = errIno ∨ ∃ q, resolve v path = real v q := by
  unfold resolve follow
  split_ifs
  · exact Or.inl rfl
  · cases linkText (v (real v path)) with
    | none => exact Or.inl rfl
    | some t => exact Or.inr ⟨t,rfl⟩
  · exact Or.inr ⟨path,rfl⟩

theorem resolve_origin (path : Str) :
    resolve v path = errIno ∨ resolve v path = 0 ∨ resolve v path = 2 ∨
      ∃ k, (v k).isDir = true ∧ ∃ d ∈ (v k).dentries, d.dIno = resolve v path := by
  rcases resolve_real (v := v) path with h | ⟨q,h⟩
  · exact Or.inl h
  · rw [h]
    exact Or.inr (real_origin q)

def Resolves (v : View) (path : Str) : Prop := resolve v path ≠ 0 ∧ resolve v path ≠ errIno

instance (v : View) (path : Str) : Decidable (Resolves v path) :=
  inferInstanceAs (Decidable (_ ∧ _))

structure Fresh (v : View) (n : ℕ) : Prop where
  ne_zero : n ≠ 0
  ne_root : n ≠ 2
  ne_err : n ≠ errIno
  unnamed : ∀ k, ∀ d ∈ (v k).dentries, d.dIno ≠ n

theorem Fresh.nameIn_ne {n : ℕ} (h : Fresh v n) (name : Str) (fh : ℕ) :
    nameIn v name fh ≠ n := by
  rcases nameIn_origin (v := v) name fh with h0 | ⟨-,d,hm,-,hi⟩
  · rw [h0]
    exact h.ne_zero.symm
  · rw [← hi]
    exact h.unnamed fh d hm

theorem Fresh.walk_ne {n : ℕ} (h : Fresh v n) (segs : List Str) : walk v 2 segs ≠ n := by
  rcases walk_origin (v := v) segs 2 with h0 | h2 | ⟨k,-,d,hm,hi⟩
  · rw [h0]
    exact h.ne_zero.symm
  · rw [h2]
    exact h.ne_root.symm
  · rw [← hi]
    exact h.unnamed k d hm

theorem Fresh.real_ne {n : ℕ} (h : Fresh v n) (path : Str) : real v path ≠ n :=
  h.walk_ne (segments path)

theorem Fresh.resolve_ne {n : ℕ} (h : Fresh v n) (path : Str) : resolve v path ≠ n := by
  rcases resolve_real (v := v) path with he | ⟨q,hq⟩
  · rw [he]
    exact h.ne_err.symm
  · rw [hq]
    exact h.real_ne q

theorem Fresh.walk_update {n : ℕ} (h : Fresh v n) (f : File) (segs : List Str) (fh : ℕ)
    (hf : fh ≠ n) : walk (Function.update v n f) fh segs = walk v fh segs := by
  induction segs generalizing fh with
  | nil => rfl
  | cons it segs ih =>
    have hn : nameIn (Function.update v n f) it fh = nameIn v it fh := by
      rw [nameIn, nameIn, Function.update_of_ne hf]
    rw [walk, walk, ih fh hf, hn, ih _ (h.nameIn_ne it fh), Function.update_of_ne hf]

theorem Fresh.resolve_update {n : ℕ} (h : Fresh v n) (f : File) (path : Str) :
    resolve (Function.update v n f) path = resolve v path := by
  have hr : real (Function.update v n f) = real v :=
    funext (fun p => h.walk_update f (segments p) 2 h.ne_root.symm)
  rw [resolve, resolve, follow, follow, hr, Function.update_of_ne (h.real_ne path)]

/-- Once a fresh file that is not a directory is entered under a parent, a
walk ends where it did, or it failed before and ends at 0 or at the file. -/
theorem Fresh.walk_entered {n P : ℕ} (h : Fresh v n) (h0 : (v 0).isDir = false) (f : File)
    (hf : f.isDir = false) (hP : P ≠ n) (name : Str) (segs : List Str) (fh : ℕ) (hfh : fh ≠ n) :
    walk (put (Function.update v n f) P (File.push ⟨name,n⟩)) fh segs = walk v fh segs ∨
      walk v fh segs = 0 ∧
        (walk (put (Function.update v n f) P (File.push ⟨name,n⟩)) fh segs = 0 ∨
          walk (put (Function.update v n f) P (File.push ⟨name,n⟩)) fh segs = n) := by
  set w := put (Function.update v n f) P (File.push ⟨name,n⟩) with hw
  have hwn : (w n).isDir = false := by
    rw [hw, put_of_ne _ _ hP.symm, Function.update_self, hf]
  -- away from `n` the new table has the same types and at most one more entry
  have hwk : ∀ k, k ≠ n → (w k).isDir = (v k).isDir ∧
      ((w k).dentries = (v k).dentries ∨ (w k).dentries = (v k).dentries++[⟨name,n⟩]) := by
    intro k hk
    by_cases hkP : k = P
    · subst hkP
      simp [hw, hk, File.isDir]
    · rw [hw, put_of_ne _ _ hkP, Function.update_of_ne hk]
      exact ⟨rfl,Or.inl rfl⟩
  clear_value w
  induction segs generalizing fh with
  | nil => exact Or.inl rfl
  | cons it segs ih =>
    obtain ⟨hd,hent⟩ := hwk fh hfh
    rw [walk, walk, hd]
    by_cases he : it = []
    · rw [if_pos he, if_pos he]
      exact ih fh hfh
    by_cases hdir : (v fh).isDir = true
    · simp only [he, if_false, hdir, if_true]
      cases hfind : (v fh).dentries.find? (fun d => d.dName == it) with
      | some d =>
        have hv : nameIn v it fh = d.dIno := by simp [nameIn, hdir, hfind]
        have hw' : nameIn w it fh = d.dIno := by
          rcases hent with hent | hent <;> simp [nameIn, hd, hdir, hent, hfind]
        rw [hv, hw']
        exact ih _ (hv ▸ h.nameIn_ne it fh)
      | none =>
        have hv : nameIn v it fh = 0 := by simp [nameIn, hdir, hfind]
        have hw' : nameIn w it fh = 0 ∨ nameIn w it fh = n := by
          rcases hent with hent | hent
          · left
            simp [nameIn, hd, hdir, hent, hfind]
          · by_cases hit : name = it
            · right
              simp [nameIn, hd, hdir, hent, hfind, hit]
            · left
              simp [nameIn, hd, hdir, hent, hfind, hit]
        rw [hv]
        rcases hw' with hw' | hw'
        · rw [hw']
          exact ih 0 h.ne_zero.symm
        · rw [hw']
          exact Or.inr ⟨walk_zero h0 segs,(walk_not_dir hwn segs).symm⟩
    · simp [he, hdir]

theorem Fresh.real_entered {n P : ℕ} (h : Fresh v n) (h0 : (v 0).isDir = false) (f : File)
    (hf : f.isDir = false) (hP : P ≠ n) (name path : Str) :
    real (put (Function.update v n f) P (File.push ⟨name,n⟩)) path = real v path ∨
      real v path = 0 ∧ (real (put (Function.update v n f) P (File.push ⟨name,n⟩)) path = 0 ∨
        real (put (Function.update v n f) P (File.push ⟨name,n⟩)) path = n) :=
  h.walk_entered h0 f hf hP name (segments path) 2 h.ne_root.symm

theorem Fresh.resolve_entered {n P : ℕ} (h : Fresh v n) (h0 : (v 0).isDir = false)
    (h0l : (v 0).isLnk = false) (f : File) (hf : f.isDir = false) (hfl : f.isLnk = false)
    (hP : P ≠ n) (name path : Str) (hfree : resolve v path = 0) :
    resolve (put (Function.update v n f) P (File.push ⟨name,n⟩)) path = 0 ∨
      resolve (put (Function.update v n f) P (File.push ⟨name,n⟩)) path = n := by
  have hreal := h.real_entered h0 f hf hP name
  set w := put (Function.update v n f) P (File.push ⟨name,n⟩) with hw
  have hmeta : ∀ k, k ≠ n → (w k).metadata = (v k).metadata ∧ (w k).data = (v k).data := by
    intro k hk
    by_cases hkP : k = P
    · subst hkP
      simp [hw, hk]
    · rw [hw, put_of_ne _ _ hkP, Function.update_of_ne hk]
      exact ⟨rfl,rfl⟩
  have hwn : (w n).isLnk = false := by
    rw [hw, put_of_ne _ _ hP.symm, Function.update_self, hfl]
  have hw0 : (w 0).isLnk = false := by
    rw [File.isLnk, (hmeta 0 h.ne_zero.symm).1]
    exact h0l
  rcases hreal path with hr | ⟨-,hr | hr⟩
  · have hne := h.real_ne path
    have hlnk : (w (real v path)).isLnk = (v (real v path)).isLnk := by
      rw [File.isLnk, File.isLnk, (hmeta _ hne).1]
    have htext : linkText (w (real v path)) = linkText (v (real v path)) := by
      rw [linkText, linkText, (hmeta _ hne).2]
    unfold resolve follow at hfree
    rw [resolve, follow, hr, hlnk, htext]
    split_ifs at hfree with hk hz
    · simp [errIno] at hfree
    · rw [if_pos hk, if_neg hz]
      cases ht : linkText (v (real v path)) with
      | none => simp [ht, errIno] at hfree
      | some t =>
        rw [ht] at hfree
        rcases hreal t with hr' | ⟨-,hr'⟩
        · left
          exact hr'.trans hfree
        · exact hr'
    · rw [if_neg hk]
      exact Or.inl hfree
  · rw [resolve, hr, follow_not_lnk hw0]
    exact Or.inl rfl
  · rw [resolve, hr, follow_not_lnk hwn]
    exact Or.inr rfl

end Bbfs.Walks
