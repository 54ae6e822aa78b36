import Bbfs.Renaming

/-!
# The name a creation gives

`my_mknod` and `my_link` push their entry into what `find_ino` makes of the
prefix, and take a name for free when `find_ino` gives 0 for the whole path. The
new name is seen by a walk when the prefix is a directory by a walk as well, and
no entry of that name was there.
-/

set_option autoImplicit false

namespace Bbfs.Creating
open Bbfs.Strings Bbfs.Files Bbfs.Resolve Bbfs.Calls Bbfs.Session Bbfs.Walks Bbfs.Effects
open Bbfs.Outcomes Bbfs.Numbers Bbfs.Directories Bbfs.Renaming

def entering : Call → Option Str
  | .mknod path _ _ | .mkdir path _ | .creat path _ | .link _ path => some path
  | _ => none

def entersNumber (s : Fs) : Call → ℕ
  | .link path _ => resolve s.file path
  | _ => s.count

/-- The directory of the last name in the path has an entry of that name. -/
def NamesEntry (v : View) (path : Str) : Prop :=
  ∃ e, entryOf v path = some e ∧ (v e.1).isDir = true ∧ under e.2 (v e.1) ≠ []

/-- The prefix is a directory, without following a link, that has no entry of
the last name. -/
def Free (v : View) (path : Str) : Prop :=
  (v (real v (parentPath path))).isDir = true ∧
    under (tail path) (v (real v (parentPath path))) = []

instance (v : View) (path : Str) : Decidable (Free v path) := inferInstanceAs (Decidable (_ ∧ _))

variable {v w : View} {s s' : Fs} {env : Env} {path q name : Str} {P i k : ℕ} {c : Call}

/-- The table `w` is `v` with one more entry, and perhaps a new file. -/
structure Attached (v w : View) (P : ℕ) (name : Str) (i : ℕ) : Prop where
  dirs : ∀ k, (v k).isDir = true → (w k).isDir = true
  sentinel : (w 0).isDir = false
  entries : ∀ k, (v k).isDir = true → ∀ m,
    under m (w k) = under m (v k)++if k = P ∧ name = m then [i] else []

theorem Attached.walk (h : Attached v w P name i) (h0 : (v 0).isDir = false) (segs : List Str)
    (fh : ℕ) (hne : walk v fh segs ≠ 0) : walk w fh segs = walk v fh segs := by
  induction segs generalizing fh with
  | nil => rfl
  | cons it segs ih =>
    rw [Resolve.walk] at hne
    rw [Resolve.walk, Resolve.walk]
    by_cases he : it = []
    · rw [if_pos he] at hne ⊢
      rw [if_pos he]
      exact ih fh hne
    · rw [if_neg he] at hne ⊢
      rw [if_neg he]
      by_cases hd : (v fh).isDir = true
      · have hdw := h.dirs fh hd
        rw [if_pos hd] at hne
        have hfound : nameIn v it fh ≠ 0 := by
          intro hz
          rw [hz, walk_zero h0] at hne
          exact hne rfl
        rw [if_pos hd, if_pos hdw, nameIn_extended (hdw.trans hd.symm) (h.entries fh hd it) hfound]
        exact ih _ hne
      · rw [if_neg hd] at hne
        exact absurd rfl hne

theorem ne_count_of_isDir (hs : Settled s) (hd : (s.file k).isDir = true) : k ≠ s.count := by
  rintro rfl
  rw [(untyped (hs.spare s.count le_rfl hs.fresh.ne_err).2).1] at hd
  exact Bool.false_ne_true hd

theorem attached_enter (hs : Settled s) (name : Str) (f : File) :
    Attached s.file (enterView s.file s.count P name f) P name s.count where
  dirs := by
    intro k hd
    rw [entered_isDir (ne_count_of_isDir hs hd)]
    exact hd
  sentinel := by
    rw [entered_isDir hs.fresh.ne_zero.symm]
    exact (untyped hs.sentinel).1
  entries := by
    intro k hd m
    exact entered_under (ne_count_of_isDir hs hd) name f m

theorem attached_link (h0 : (v 0).isDir = false) (P i : ℕ) (name : Str) :
    Attached v (linkView v P name i) P name i where
  dirs := by
    intro k hd
    rw [linkView_isDir]
    exact hd
  sentinel := by
    rw [linkView_isDir]
    exact h0
  entries := by
    intro k _ m
    have hsame : under m (put v i (File.setStat incNlink) k) = under m (v k) := by
      by_cases hk : k = i
      · subst hk
        rw [put_self]
        rfl
      · rw [put_of_ne _ _ hk]
    rw [linkView, under_pushed, hsame]

theorem guarded_path (h0 : (v 0).isDir = false) (hl : (v 0).isLnk = false)
    (hP : resolve v (parentPath q) ≠ 0) (hq : resolve v q = 0) :
    tail q ≠ [] ∧ real v (parentPath q) ≠ 0 := by
  constructor
  · intro ht
    have hsame : resolve v q = resolve v (parentPath q) := by
      rw [resolve, resolve, real_parentPath h0, if_pos ht]
    exact hP (hsame.symm.trans hq)
  · intro hz
    rw [resolve, hz, follow_not_lnk hl] at hP
    exact hP rfl

theorem namesEntry_iff (ht : tail q ≠ []) : NamesEntry v q ↔
    (v (real v (parentPath q))).isDir = true ∧
      under (tail q) (v (real v (parentPath q))) ≠ [] := by
  constructor
  · rintro ⟨e,he,hd,hu⟩
    obtain rfl := Option.some.inj ((entryOf_tail ht).symm.trans he)
    exact ⟨hd,hu⟩
  · exact fun h => ⟨_,entryOf_tail ht,h⟩

/-- After a creation that has passed its guards, the path leads to the number
entered, and named no entry before, exactly when it was free. -/
theorem Attached.real_iff (h : Attached v w (resolve v (parentPath q)) (tail q) i)
    (h0 : (v 0).isDir = false) (hl : (v 0).isLnk = false) (hP : resolve v (parentPath q) ≠ 0)
    (hq : resolve v q = 0) (hi : i ≠ 0)
    (htype : (w (real v (parentPath q))).isDir = (v (real v (parentPath q))).isDir) :
    real w q = i ∧ ¬ NamesEntry v q ↔ Free v q := by
  obtain ⟨ht,hX⟩ := guarded_path h0 hl hP hq
  have hparent : real w (parentPath q) = real v (parentPath q) := h.walk h0 _ 2 hX
  rw [namesEntry_iff ht, real_parentPath h.sentinel, if_neg ht, hparent, htype]
  by_cases hd : (v (real v (parentPath q))).isDir = true
  · have hat := resolve_dir hd
    rw [if_pos hd, nameIn_under, htype, if_pos hd, h.entries _ hd, if_pos ⟨hat.symm,rfl⟩]
    constructor
    · rintro ⟨-,hno⟩
      exact ⟨hd,not_not.mp (fun hu => hno ⟨hd,hu⟩)⟩
    · rintro ⟨-,hu⟩
      rw [hu]
      exact ⟨rfl,fun hno => hno.2 rfl⟩
  · rw [if_neg hd]
    exact iff_of_false (fun hz => hi hz.1.symm) (fun hf => hd hf.1)

theorem created_ok {mode : Mode} {dev : ℕ} (hs : Settled s)
    (h : myMknod env q mode dev s = (ok,s')) :
    resolve s.file (parentPath q) ≠ 0 ∧ resolve s.file q = 0 ∧
      ∃ f, s'.file = enterView s.file s.count (resolve s.file (parentPath q)) (tail q) f := by
  obtain ⟨-,-,-,f,-,-,hcase⟩ := myMknod_effect hs h
  obtain ⟨-,hgo,-,hv⟩ := hcase.resolve_left (fun hbad => absurd hbad.1 (by decide))
  exact ⟨hgo.1,hgo.2,f,hv⟩

theorem entered_ok (hs : Settled s) (hc : entering c = some q)
    (ha : answer env c s = some (ok,s')) :
    resolve s.file (parentPath q) ≠ 0 ∧ resolve s.file q = 0 ∧ entersNumber s c ≠ 0 ∧
      Attached s.file s'.file (resolve s.file (parentPath q)) (tail q) (entersNumber s c) ∧
      (s'.file (real s.file (parentPath q))).isDir =
        (s.file (real s.file (parentPath q))).isDir := by
  have hmk : ∀ {mode dev}, myMknod env q mode dev s = (ok,s') →
      resolve s.file (parentPath q) ≠ 0 ∧ resolve s.file q = 0 ∧ s.count ≠ 0 ∧
        Attached s.file s'.file (resolve s.file (parentPath q)) (tail q) s.count ∧
        (s'.file (real s.file (parentPath q))).isDir =
          (s.file (real s.file (parentPath q))).isDir := by
    intro mode dev h
    obtain ⟨hP,hq,f,hv⟩ := created_ok hs h
    rw [hv]
    exact ⟨hP,hq,hs.fresh.ne_zero,attached_enter hs _ f,entered_isDir (hs.fresh.real_ne _) _ f⟩
  cases c with
  | mknod path mode dev =>
    obtain rfl := Option.some.inj hc
    exact hmk (Option.some.inj ha)
  | mkdir path mode =>
    obtain rfl := Option.some.inj hc
    exact hmk (Option.some.inj ha)
  | creat path mode =>
    obtain rfl := Option.some.inj hc
    have hm := Option.some.inj ha
    rw [myCreat] at hm
    split_ifs at hm
    · exact absurd (congrArg Prod.fst hm) err_ne_ok
    · exact hmk hm
  | link path newpath =>
    obtain rfl := Option.some.inj hc
    obtain ⟨⟨hne,-,hP,hq⟩,hv,-⟩ := myLink_ok (Option.some.inj ha)
    rw [hv]
    refine ⟨hP,hq,hne,attached_link (untyped hs.sentinel).1 _ _ _,?_⟩
    rw [linkView_isDir]
  | _ => simp [entering] at hc

theorem Free.real (hf : Free s.file q) (hs : Settled s) (ht : tail q ≠ []) :
    real s.file q = 0 := by
  rw [real_parentPath (untyped hs.sentinel).1, if_neg ht, if_pos hf.1, nameIn_under, if_pos hf.1,
    hf.2]
  rfl

theorem Free.touches (hf : Free s.file q) (hs : Settled s) (ht : tail q ≠ [])
    (hk : k ∈ mknodTouches s.file q) : k = 0 ∨ k ∈ s.keys := by
  have hmem : Resolve.real s.file (parentPath q) ∈ s.keys := mem_of_isDir hf.1
  have hcases : k = 0 ∨ k = Resolve.real s.file (parentPath q) := by
    rw [mknodTouches, resolve_dir hf.1, hf.real hs ht] at hk
    split_ifs at hk <;> simp at hk <;> tauto
  rcases hcases with rfl | rfl
  · exact Or.inl rfl
  · exact Or.inr hmem

end Bbfs.Creating
