import Bbfs.FreedCopy
import Bbfs.Renaming

/-!
# Composition of walks

`find_real_ino` depends on the non-empty segments of its path only, and a
longer path goes on from where the shorter one ends, as far as `split` takes
the paths apart and the entries are read from copies that are still there. A
walk that has failed stays at 0, since nothing ever makes a directory there.
-/

set_option autoImplicit false

namespace Bbfs.Composing
open Bbfs.Strings Bbfs.Files Bbfs.Resolve Bbfs.Calls Bbfs.Session Bbfs.Walks Bbfs.Effects
open Bbfs.Numbers Bbfs.Renaming Bbfs.Runs Bbfs.Splitting Bbfs.FreedCopy

variable {env : Env} {s : Fs}

/-- The walk over non-empty segments: with segments left it ends at 0 where
there is no entry in the table, no directory, or no such name. -/
def onward (s : Fs) : ℕ → List Str → ℕ
  | fh, [] => fh
  | fh, it::segs =>
    if fh ∉ s.entry then 0
    else if (s.file fh).isDir = false then 0
    else
      match (s.file fh).dentries.find? (fun d => d.dName == it) with
      | none => 0
      | some d => onward s d.dIno segs

theorem steps_ne_nil {path w : Str} (h : w ∈ steps path) : w ≠ [] := by
  have hw := (List.mem_filter.mp h).2
  rintro rfl
  simp at hw

theorem walk_onward (h0 : (s.file 0).isDir = false) (segs : List Str) (hne : ∀ w ∈ segs, w ≠ [])
    (fh : ℕ) : walk s.file fh segs = onward s fh segs := by
  induction segs generalizing fh with
  | nil => rfl
  | cons it segs ih =>
    obtain ⟨hit,hsegs⟩ := List.forall_mem_cons.mp hne
    rw [walk, if_neg hit, onward]
    by_cases hd : (s.file fh).isDir = true
    · have hmem : ¬ fh ∉ s.entry := not_not.mpr (mem_of_isDir hd)
      rw [if_pos hd, if_neg hmem, if_neg (by simp [hd]), nameIn, if_pos hd]
      cases hf : (s.file fh).dentries.find? (fun d => d.dName == it) with
      | none => exact walk_zero h0 segs
      | some d => exact ih hsegs d.dIno
    · rw [if_neg hd, if_pos (Bool.eq_false_iff.mpr hd), ite_self]

theorem real_onward (h0 : (s.file 0).isDir = false) (p q : Str) :
    real s.file (p++ '/'::q) = onward s (real s.file p) (steps q) := by
  rw [real_append h0, ← walk_steps]
  exact walk_onward h0 (steps q) (fun _ => steps_ne_nil) (real s.file p)

/-- The end of the last segment is found: the length of the path fits. -/
def Whole (path : Str) : Prop := LengthFits path.length (path.length-(tail path).length)

instance (path : Str) : Decidable (Whole path) := inferInstanceAs (Decidable (LengthFits _ _))

theorem intercalate_segments (path : Str) : slash.intercalate (segments path) = path := by
  rw [segments_eq]
  exact List.intercalate_splitOn '/'

/-- Exactly these paths come apart into their segments. -/
theorem whole_iff (path : Str) :
    Whole path ↔ Returns (Splitting.split path slash) (segments path) := by
  have hjoin : path.drop 0 = slash.intercalate (segments path) := (intercalate_segments path).symm
  constructor
  · intro hwhole
    exact ⟨_,splitLoop_pieces (i := 0) (segments_ne_nil path) (segments_slash_free path)
      (Nat.zero_le _) hjoin hwhole⟩
  · rintro ⟨fuel,hsplit⟩
    exact (splitLoop_begins (i := 0) (segments_ne_nil path) (segments_slash_free path)
      (Nat.zero_le _) (by decide) hjoin hsplit List.prefix_rfl).2

theorem tail_append (p q : Str) : tail (p++ '/'::q) = tail q := by
  have hne := segments_ne_nil q
  rw [tail, tail, segments_append, List.getLastD_eq_getLast?, List.getLastD_eq_getLast?,
    List.getLast?_append_of_ne_nil _ hne]

theorem tail_length (path : Str) : (tail path).length ≤ path.length := by
  have hlen := length_intercalate (segments_ne_nil path)
  rw [intercalate_segments, joinedLength] at hlen
  rw [hlen]
  exact Nat.le_add_left _ _

theorem whole_append {p q : Str} (h : Whole (p++ '/'::q)) : Whole p := by
  have htail := tail_length q
  rw [Whole, tail_append, List.length_append, List.length_cons] at h
  rcases h with hlt | ⟨hlt,-⟩
  · exact Or.inl (by omega)
  · exact Or.inl (by omega)

theorem whole_pair {p q : Str} (hp : Whole p) (hq : Whole q) : ∃ fuel,
    Splitting.split p slash fuel = some (segments p) ∧
      Splitting.split q slash fuel = some (segments q) := by
  obtain ⟨m,hm⟩ := (whole_iff p).mp hp
  obtain ⟨n,hn⟩ := (whole_iff q).mp hq
  exact ⟨max m n,splitLoop_le hm (Nat.le_max_left m n),splitLoop_le hn (Nat.le_max_right m n)⟩

theorem whole_split {p : Str} {fuel : ℕ} {segs : List Str} (hp : Whole p)
    (h : Splitting.split p slash fuel = some segs) : segs = segments p :=
  returns_unique ⟨fuel,h⟩ ((whole_iff p).mp hp)

theorem reads_steps (v : View) (segs : List Str) (fh : ℕ) :
    reads v (segs.filter (fun w => !w.isEmpty)) fh = reads v segs fh := by
  induction segs generalizing fh with
  | nil => rfl
  | cons it segs ih =>
    by_cases he : it = []
    · subst he
      rw [reads, if_pos rfl, ← ih]
      rfl
    · have hkeep : (it::segs).filter (fun w => !w.isEmpty) =
          it::segs.filter (fun w => !w.isEmpty) :=
        List.filter_cons_of_pos (by simpa using he)
      rw [hkeep, reads, reads, if_neg he, if_neg he, ih]

theorem reads_append {v : View} {xs ys : List Str} {fh : ℕ} (h : reads v (xs++ys) fh = false) :
    reads v xs fh = false := by
  induction xs generalizing fh with
  | nil => rfl
  | cons it xs ih =>
    rw [List.cons_append, reads] at h
    rw [reads]
    split_ifs at h ⊢ with he
    · exact ih h
    · simp only [Bool.and_eq_false_iff, Bool.or_eq_false_iff] at h ⊢
      exact h.imp_right (fun hrest => ⟨hrest.1,ih hrest.2⟩)

def SameWalk (heap : Heap) (p q : Str) (s : Fs) : Prop :=
  ∀ m m', heap.Leaves m → heap.Leaves m' → ∃ fuel fh,
    FreedCopy.findRealIno m fuel p s = some (fh,s) ∧
      FreedCopy.findRealIno m' fuel q s = some (fh,s)

/-- The longer path is walked to where the walk goes on from the shorter one. -/
def Composes (heap : Heap) (p q : Str) (s : Fs) : Prop :=
  ∀ m m', heap.Leaves m → heap.Leaves m' → ∃ fuel fh,
    FreedCopy.findRealIno m fuel p s = some (fh,s) ∧
      FreedCopy.findRealIno m' fuel (p++ '/'::q) s = some (onward s fh (steps q),s)

theorem findRealIno_whole {m : Copies} {p : Str} {fuel fh : ℕ} (hp : Whole p)
    (h : FreedCopy.findRealIno m fuel p s = some (fh,s)) :
    fh = walkLeft s.file m (segments p) 2 := by
  cases hsplit : Splitting.split p slash fuel with
  | none => simp [FreedCopy.findRealIno, hsplit] at h
  | some segs =>
    rw [findRealIno_split hsplit, whole_split hp hsplit] at h
    exact (congrArg Prod.fst (Option.some.inj h)).symm

theorem sameWalk_iff (heap : Heap) {p q : Str} (hpq : steps p = steps q) (hp : Whole p)
    (hq : Whole q) : SameWalk heap p q s ↔ Told heap s.file (segments p) := by
  have hreal : walk s.file 2 (segments p) = walk s.file 2 (segments q) := by
    rw [← walk_steps, ← walk_steps (segments q)]
    exact congrArg (walk s.file 2) hpq
  have hreads : reads s.file (segments p) 2 = reads s.file (segments q) 2 := by
    rw [← reads_steps, ← reads_steps s.file (segments q)]
    exact congrArg (fun segs => reads s.file segs 2) hpq
  constructor
  · intro hsame
    refine told_of_constant (y := walkLeft s.file intact (segments q) 2) (fun m hm _ => ?_)
    obtain ⟨fuel,fh,hfh,hfh'⟩ := hsame m intact hm heap.leaves_intact
    rw [← findRealIno_whole hp hfh]
    exact findRealIno_whole hq hfh'
  · intro htold m m' hm hm'
    obtain ⟨fuel,hsplit,hsplit'⟩ := whole_pair hp hq
    have htold' : Told heap s.file (segments q) := htold.imp_right (fun hr => hreads ▸ hr)
    refine ⟨fuel,_,findRealIno_told htold hm hsplit,?_⟩
    rw [findRealIno_told htold' hm' hsplit', hreal]

theorem composes_iff (heap : Heap) (h0 : (s.file 0).isDir = false) {p q : Str}
    (hpq : Whole (p++ '/'::q)) :
    Composes heap p q s ↔ Told heap s.file (segments (p++ '/'::q)) := by
  have hp := whole_append hpq
  have hwalk : walk s.file 2 (segments (p++ '/'::q)) =
      onward s (walk s.file 2 (segments p)) (steps q) := real_onward h0 p q
  constructor
  · intro hcomp
    refine told_of_constant (y := onward s (walkLeft s.file intact (segments p) 2) (steps q))
      (fun m' hm' _ => ?_)
    obtain ⟨fuel,fh,hfh,hfh'⟩ := hcomp intact m' heap.leaves_intact hm'
    rw [← findRealIno_whole hpq hfh', findRealIno_whole hp hfh]
  · intro htold m m' hm hm'
    obtain ⟨fuel,hsplit,hsplit'⟩ := whole_pair hp hpq
    have htold' : Told heap s.file (segments p) :=
      htold.imp_right (fun hr => reads_append (segments_append p q ▸ hr))
    refine ⟨fuel,_,findRealIno_told htold' hm hsplit,?_⟩
    rw [findRealIno_told htold hm' hsplit', hwalk]

/-- A path that `split` takes apart is walked by its non-empty segments, and on
from the paths it begins with, exactly if the copies hold their entries or none
is read. -/
theorem resolution_composes_iff (h : Sessions env anyCall s) (heap : Heap) :
    (∀ p, Whole p ↔ Returns (Splitting.split p slash) (segments p)) ∧
    (∀ p q, steps p = steps q → Whole p → Whole q →
      (SameWalk heap p q s ↔ Told heap s.file (segments p))) ∧
    ∀ p q, Whole (p++ '/'::q) →
      (Composes heap p q s ↔ Told heap s.file (segments (p++ '/'::q))) :=
  ⟨whole_iff,fun _ _ => sameWalk_iff heap,
    fun _ _ => composes_iff heap (untyped (sessions_settled h).sentinel).1⟩

/-- A name that is missing in a made directory. -/
theorem resolution_composes_missing :
    Composes .untouched ['/','d'] ['x','/','y'] (after [.mkdir ['/','d'] 0o755#32]) ∧
      SameWalk .reused ['/'] ['/','/'] (after [.mkdir ['/','d'] 0o755#32]) ∧
      onward (after [.mkdir ['/','d'] 0o755#32]) 3 (steps ['x','/','y']) = 0 := by
  have hs : Sessions plainEnv anyCall (after [.mkdir ['/','d'] 0o755#32]) :=
    after_session (by decide) (by decide)
  refine ⟨?_,?_,by decide +kernel⟩
  · exact ((resolution_composes_iff hs .untouched).2.2 _ _ (by decide)).mpr (Or.inl rfl)
  · exact ((resolution_composes_iff hs .reused).2.1 _ _ (by decide) (by decide) (by decide)).mpr
      (Or.inr (by decide +kernel))

/-- The length of such a path is 1 as an `int`, so that its last piece is empty. -/
theorem split_long {w : Str} (hw : '/' ∉ w) (hlen : w.length = 2^32) :
    Splitting.split ('/'::w) slash 2 = some [[],[]] := by
  have hfirst : Splitting.splitLoop (fun _ => true) ('/'::w) slash 2 (0:ℕ) =
      (Splitting.splitLoop (fun _ => true) ('/'::w) slash 1 (0+([]:Str).length+1 : ℕ)).map
        (([]:Str)::·) :=
    splitLoop_piece List.not_mem_nil (Nat.zero_le _) rfl (by decide)
  have hlast : Splitting.splitLoop (fun _ => true) ('/'::w) slash 1 (1:ℕ) =
      if FuseBytes.IsInt (toInt32 ('/'::w).length-(1:ℕ)) then
        some [piece ('/'::w) 1 (toInt32 ('/'::w).length)] else none :=
    splitLoop_last (by rw [List.length_cons]; omega) (find_end hw)
  have hone : toInt32 ((2^32+1 : ℕ):ℤ) = 1 := by decide
  rw [List.length_cons, hlen, hone, if_pos (by decide)] at hlast
  rw [show ((0+([]:Str).length+1 : ℕ):ℤ) = ((1:ℕ):ℤ) from rfl, hlast] at hfirst
  exact hfirst

theorem onward_long {w : Str} (hlen : w.length = 2^32) :
    onward (initialized plainEnv) 2 [w] = 0 := by
  have hroot := (initialized_eq plainEnv).2.2.2
  have hfind : ((initialized plainEnv).file 2).dentries.find? (fun d => d.dName == w) = none := by
    rw [hroot, rootView_root, List.find?_eq_none]
    intro d hd hname
    have hlong := congrArg List.length (beq_iff_eq.mp hname)
    rw [hlen] at hlong
    rcases List.mem_cons.mp hd with rfl | hd
    · exact absurd hlong (by decide)
    · obtain rfl := List.mem_singleton.mp hd
      exact absurd hlong (by decide)
  have hdir : ((initialized plainEnv).file 2).isDir = true := by decide +kernel
  have hmem : ¬ 2 ∉ (initialized plainEnv).entry := not_not.mpr (mem_of_isDir hdir)
  rw [onward, if_neg hmem, if_neg (by simp [hdir]), hfind]

/-- The dot of a directory whose copy is used again, and a name of 2^32 bytes. -/
theorem resolution_composes_fails :
    (¬ ∀ (env : Env) (s : Fs) (heap : Heap) (p q : Str), Sessions env anyCall s →
      (p++ '/'::q).length < 2^31 → Composes heap p q s) ∧
    ¬ ∀ (env : Env) (s : Fs) (p q : Str), Sessions env anyCall s →
      Composes .untouched p q s := by
  constructor
  · intro hall
    have hcomp := hall plainEnv (after [.mkdir ['/','d'] 0o755#32]) .reused ['/','d'] ['.']
      (after_session (by decide) (by decide)) (by decide)
    obtain ⟨fuel,fh,hfh,hfh'⟩ := hcomp intact firstLost trivial trivial
    have h1 := findRealIno_whole (by decide) hfh
    have h2 := findRealIno_whole (by decide) hfh'
    rw [h1] at h2
    exact absurd h2 (by decide +kernel)
  · intro hall
    obtain ⟨w,hw,hlen⟩ : ∃ w : Str, '/' ∉ w ∧ w.length = 2^32 :=
      ⟨List.replicate (2^32) 'a',slash_free_replicate _,List.length_replicate⟩
    obtain ⟨fuel,fh,hfh,hfh'⟩ := hall plainEnv (initialized plainEnv) [] w Reaches.start
      intact intact rfl rfl
    have h2 : fh = 2 := findRealIno_whole (by decide) hfh
    have hsteps : steps w = [w] := by
      rw [steps, segments_of_slash_free w hw, List.filter_singleton]
      cases w with
      | nil => simp at hlen
      | cons c w => rfl
    rw [h2, hsteps, onward_long hlen, List.nil_append] at hfh'
    cases hsplit : Splitting.split ('/'::w) slash fuel with
    | none => simp [FreedCopy.findRealIno, hsplit] at hfh'
    | some segs =>
      obtain rfl := returns_unique ⟨fuel,hsplit⟩ ⟨2,split_long hw hlen⟩
      rw [findRealIno_split hsplit] at hfh'
      exact absurd (congrArg Prod.fst (Option.some.inj hfh')) (by decide)

end Bbfs.Composing
