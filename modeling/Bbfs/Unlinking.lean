import Bbfs.Undoing

/-!
# The frame of an unlink

`my_unlink` takes the number by a walk that follows a last link, the entry by
its last segment in a parent resolved separately, and never asks for a type.
Against it stands the removal of one entry: the entry of the last step of the
path goes, the file it names loses a link, and what was found by a walk is found
still.
-/

set_option autoImplicit false

namespace Bbfs.Unlinking
open Bbfs.Strings Bbfs.Files Bbfs.Resolve Bbfs.Calls Bbfs.Session Bbfs.Walks Bbfs.Effects
open Bbfs.Outcomes Bbfs.Numbers Bbfs.Directories Bbfs.Renaming

def Found (v : View) (k : ℕ) : Prop := ∃ path, real v path = k

/-- The entry `e`, which names `j`, is gone, the file `j` has a link less, or is
gone with its last link, and the other files are as they were. -/
structure Detached (s s' : Fs) (e : ℕ × Str) (j : ℕ) : Prop where
  dentries : ∀ k, (s'.file k).dentries = (without s.file e k).dentries
  keys : ∀ k, k ≠ 0 → (k ∈ s'.keys ↔ k ∈ s.keys ∧ ¬ (k = j ∧ LastLink s.file j))
  named : ¬ LastLink s.file j → rest (s'.file j) = rest ((s.file j).setStat decNlink)
  others : ∀ k, k ≠ j → rest (s'.file k) = rest (s.file k)

/-- The entry that the path names has been removed, nothing else has changed, and
what was found is found still. -/
def RemovesName (s s' : Fs) (path : Str) : Prop :=
  ∃ e d, entryOf s.file path = some e ∧ firstNamed e.2 (s.file e.1) = some d ∧
    Detached s s' e d.dIno ∧
    ∀ k ∈ s.keys, k ≠ 0 → k ≠ d.dIno → Found s.file k → Found s'.file k

/-- What the directory `j` leads to is found without the entry `e`. -/
def Spared (s : Fs) (e : ℕ × Str) (j : ℕ) : Prop :=
  ∀ name, name ≠ [] → '/' ∉ name → ∀ k, nameIn s.file name j = k → k ∈ s.keys → k ≠ 0 → k ≠ j →
    Found (without s.file e) k

/-- The path leads to a file of the table that is no link to another and ends in
its name, or in a file that goes with the entry; a file that goes holds no other
entries, and one that stays leads to nothing that needs the entry. -/
structure Separate (s : Fs) (path : Str) (e : ℕ × Str) : Prop where
  entry : entryOf s.file path = some e
  known : real s.file path ∈ s.keys
  direct : resolve s.file path = real s.file path
  slash : tail path = [] → e.1 = real s.file path ∧ LastLink s.file (real s.file path)
  alone : LastLink s.file (real s.file path) → (without s.file e (real s.file path)).dentries = []
  spared : Spared s e (real s.file path)

variable {v w : View} {s s' : Fs} {path name : Str} {e : ℕ × Str} {j k : ℕ}

theorem found_child (h0 : (v 0).isDir = false) (h : Found v k) (hn : name ≠ [])
    (hs : '/' ∉ name) (hd : (v k).isDir = true) : Found v (nameIn v name k) := by
  obtain ⟨path,rfl⟩ := h
  refine ⟨path++ '/'::name,?_⟩
  rw [real_append h0, segments_of_slash_free name hs, walk, if_neg hn, if_pos hd]
  rfl

theorem walk_bare (h0 : (v 0).isDir = false) (hb : (v k).dentries = []) (hn : name ≠ [])
    (segs : List Str) : walk v k (name::segs) = 0 := by
  rw [walk, if_neg hn]
  split_ifs with hd
  · rw [nameIn, if_pos hd, hb]
    exact walk_zero h0 segs
  · rfl

theorem walk_entries (h0 : (v 0).isDir = false) (h0' : (w 0).isDir = false)
    (hd : ∀ k, (w k).dentries = (v k).dentries)
    (ht : ∀ k, (w k).isDir = (v k).isDir ∨ (v k).dentries = []) (segs : List Str) (fh : ℕ) :
    walk w fh segs = walk v fh segs := by
  induction segs generalizing fh with
  | nil => rfl
  | cons it segs ih =>
    by_cases he : it = []
    · rw [walk, walk, if_pos he, if_pos he]
      exact ih fh
    rcases ht fh with hsame | hbare
    · have hn : nameIn w it fh = nameIn v it fh := by rw [nameIn, nameIn, hsame, hd]
      rw [walk, walk, if_neg he, if_neg he, hsame, hn, ih]
    · rw [walk_bare h0 hbare he, walk_bare h0' ((hd fh).trans hbare) he]

theorem mem_of_walk {segs : List Str} {fh : ℕ} (hw : walk s.file fh segs = k) (hk : k ∈ s.keys)
    (hk0 : k ≠ 0) : fh ∈ s.keys := by
  by_cases hd : (s.file fh).isDir = true
  · exact mem_of_isDir hd
  · rcases walk_not_dir (Bool.eq_false_iff.mpr hd) segs with hsame | hzero
    · rwa [← hsame, hw]
    · exact absurd (hw.symm.trans hzero) hk0

theorem Detached.real (hu : Detached s s' e j) (h0 : (s.file 0).isDir = false)
    (h0' : (s'.file 0).isDir = false) (halone : LastLink s.file j →
      (without s.file e j).dentries = []) (path : Str) :
    real s'.file path = real (without s.file e) path := by
  apply walk_entries ((isDir_without s.file e 0).trans h0) h0' hu.dentries
  intro k
  by_cases hk : k = j
  · subst hk
    by_cases hl : LastLink s.file k
    · exact Or.inr (halone hl)
    · left
      have hstat := isDir_of_rest (hu.named hl)
      rw [isDir_without, hstat]
      rfl
  · left
    rw [isDir_without]
    exact isDir_of_rest (hu.others k hk)

/-- A walk that starts at `j`, or at a number found without the entry, ends at such
a number. The entry itself leads to `j`. -/
theorem found_walk (h0 : (s.file 0).isDir = false) (hj : nameIn s.file e.2 e.1 = j)
    (hs : Spared s e j) (hk : k ∈ s.keys) (hk0 : k ≠ 0) (hkj : k ≠ j) (segs : List Str)
    (hfree : ∀ it ∈ segs, '/' ∉ it) (fh : ℕ) (hfh : fh = j ∨ Found (without s.file e) fh)
    (hw : walk s.file fh segs = k) : Found (without s.file e) k := by
  induction segs generalizing fh with
  | nil =>
    obtain rfl : fh = k := hw
    exact hfh.resolve_left hkj
  | cons it segs ih =>
    have hrest := ih (fun n hn => hfree n (List.mem_cons_of_mem it hn))
    rw [walk] at hw
    split_ifs at hw with he hd
    · exact hrest fh hfh hw
    · by_cases hnext : nameIn s.file it fh = j
      · exact hrest _ (Or.inl hnext) hw
      refine hrest _ (Or.inr ?_) hw
      have hslash := hfree it List.mem_cons_self
      rcases hfh with rfl | hfound
      · apply hs it he hslash _ rfl (mem_of_walk hw hk hk0) _ hnext
        intro hz
        rw [hz, walk_zero h0] at hw
        exact hk0 hw.symm
      · have hne : (fh,it) ≠ e := by
          rintro rfl
          exact hnext hj
        have hsame : nameIn (without s.file e) it fh = nameIn s.file it fh := by
          rw [nameIn_under, nameIn_under, isDir_without, under_without, if_neg hne]
        rw [← hsame]
        exact found_child ((isDir_without s.file e 0).trans h0) hfound he hslash
          ((isDir_without s.file e fh).trans hd)
    · exact absurd hw.symm hk0

theorem found_without (h0 : (s.file 0).isDir = false) (hj : nameIn s.file e.2 e.1 = j)
    (hs : Spared s e j) (hk : k ∈ s.keys) (hk0 : k ≠ 0) (hkj : k ≠ j) (hf : Found s.file k) :
    Found (without s.file e) k := by
  obtain ⟨path,hpath⟩ := hf
  have hroot : Found (without s.file e) 2 := ⟨[],rfl⟩
  exact found_walk h0 hj hs hk hk0 hkj _ (segments_slash_free path) 2 (Or.inr hroot) hpath

theorem spared_of_file (hd : (s.file j).isDir = false) : Spared s e j := by
  intro name _ _ k hk _ hk0 _
  rw [nameIn, hd] at hk
  exact absurd hk.symm hk0

theorem slash_parent (h0 : (v 0).isDir = false) (ht : tail path = []) :
    real v (parentPath path) = real v path ∧ resolve v (parentPath path) = resolve v path := by
  have hsame : real v path = real v (parentPath path) := by
    rw [real_parentPath h0, if_pos ht]
  exact ⟨hsame.symm,by rw [resolve, resolve, hsame]⟩

theorem Separate.view (hc : Separate s path e) (h0 : (s.file 0).isDir = false)
    (hr : Resolve.real s.file path ≠ 0) :
    unlinkView s.file (resolve s.file (parentPath path)) (tail path) (resolve s.file path) =
      dropLink (without s.file e) (Resolve.real s.file path) := by
  by_cases ht : tail path = []
  · obtain ⟨he,hl⟩ := hc.slash ht
    have hlast := (lastLink_dropNamed s.file (Resolve.real s.file path) e.2 _).mpr hl
    rw [(slash_parent h0 ht).2, hc.direct, unlinkView_eq, if_pos hl, without, he, dropLink,
      if_pos hlast]
    funext k
    by_cases hk : k = Resolve.real s.file path
    · subst hk
      rw [Function.update_self, Function.update_self]
    · rw [Function.update_of_ne hk, Function.update_of_ne hk, put_of_ne _ _ hk, put_of_ne _ _ hk]
  · obtain rfl := Option.some.inj (hc.entry.symm.trans (entryOf_tail ht))
    rw [resolve_dir (real_found ht hr).1, hc.direct]
    rfl

theorem Separate.touches (hc : Separate s path e) (h0 : (s.file 0).isDir = false)
    (hr : Resolve.real s.file path ≠ 0) (hk : k ∈ touches s.file (.unlink path)) :
    k ∈ s.keys := by
  have hparent : Resolve.real s.file (parentPath path) ∈ s.keys ∧
      resolve s.file (parentPath path) ∈ s.keys := by
    by_cases ht : tail path = []
    · rw [(slash_parent h0 ht).1, (slash_parent h0 ht).2, hc.direct]
      exact ⟨hc.known,hc.known⟩
    · have hd := (real_found ht hr).1
      rw [resolve_dir hd]
      exact ⟨mem_of_isDir hd,mem_of_isDir hd⟩
  have hlook := Undoing.unlink_looks hk
  rw [Undoing.looks, hc.direct] at hlook
  simp only [List.mem_cons, List.not_mem_nil, or_false] at hlook
  rcases hlook with rfl | rfl | rfl | rfl
  · exact hc.known
  · exact hc.known
  · exact hparent.1
  · exact hparent.2

theorem detached_of_view (halone : LastLink s.file j → (without s.file e j).dentries = [])
    (hv : s'.file = dropLink (without s.file e) j)
    (hkeys : ∀ k, k ≠ 0 → (k ∈ s'.keys ↔ k ∈ s.keys ∧ ¬ (k = j ∧ LastLink s.file j))) :
    Detached s s' e j := by
  have hiff : LastLink (without s.file e) j ↔ LastLink s.file j :=
    lastLink_dropNamed s.file e.1 e.2 j
  refine ⟨?_,hkeys,?_,?_⟩
  · intro k
    rw [hv]
    by_cases hk : k = j
    · subst hk
      by_cases hl : LastLink s.file k
      · rw [dropLink, if_pos (hiff.mpr hl), Function.update_self, halone hl]
        rfl
      · rw [dropLink, if_neg (fun hw => hl (hiff.mp hw)), put_self]
        rfl
    · rw [dropLink_of_ne _ hk]
  · intro hl
    rw [hv, dropLink, if_neg (fun hw => hl (hiff.mp hw)), put_self]
    exact congrArg (File.setStat decNlink) (rest_without s.file e j)
  · intro k hk
    rw [hv, dropLink_of_ne _ hk, rest_without]

theorem removes_of_separate (h0 : (s.file 0).isDir = false) (hc : Separate s path e)
    (h : myUnlink path s = (ok,s')) (hr : Resolve.real s.file path ≠ 0) :
    RemovesName s s' path := by
  obtain ⟨-,hv,hkeys⟩ := myUnlink_ok h
  rw [hc.view h0 hr] at hv
  rw [hc.direct] at hkeys
  have hU : Detached s s' e (Resolve.real s.file path) := by
    apply detached_of_view hc.alone hv
    intro k hk
    rw [← hkeys k hk, mem_dropKey, touched, Set.mem_ofPred_eq]
    apply and_congr_left'
    exact or_iff_left_of_imp (hc.touches h0 hr)
  refine ⟨e,_,hc.entry,firstNamed_real h0 hr hc.entry,hU,?_⟩
  intro k hk hk0 hkj hf
  have h0' : (s'.file 0).isDir = false := (isDir_of_rest (hU.others 0 hr.symm)).trans h0
  obtain ⟨q,hq⟩ := found_without h0 (real_entry h0 hc.entry).symm hc.spared hk hk0 hkj hf
  exact ⟨q,(hU.real h0 h0' hc.alone q).trans hq⟩

theorem direct_of_detached (hU : Detached s s' e j) (h : myUnlink path s = (ok,s')) :
    resolve s.file path = j := by
  obtain ⟨hgo,hv,hkeys⟩ := myUnlink_ok h
  by_contra hne
  have hkey := (hkeys _ hgo.1).trans (hU.keys _ hgo.1)
  rw [mem_dropKey] at hkey
  by_cases hl : LastLink s.file (resolve s.file path)
  · have hmem : resolve s.file path ∈ s.keys := mem_of_lastLink hl
    exact (hkey.mpr ⟨hmem,fun hbad => hne hbad.1⟩).2 ⟨rfl,hl⟩
  · have hlink := congrArg (fun f : File => f.metadata.stNlink) (hU.others _ hne)
    rw [hv, unlinkView_eq, if_neg hl, put_self] at hlink
    have hdrop : decrement (put s.file (resolve s.file (parentPath path))
        (File.dropNamed (tail path)) (resolve s.file path)).metadata.stNlink =
          (s.file (resolve s.file path)).metadata.stNlink := hlink
    rw [(Edit.dropNamed (tail path)).put_metadata] at hdrop
    exact decrement_ne _ hdrop

theorem known_of_detached (hU : Detached s s' e j) (h : myUnlink path s = (ok,s'))
    (hj : j ≠ 0) : j ∈ s.keys := by
  have hdirect := direct_of_detached hU h
  obtain ⟨-,-,hkeys⟩ := myUnlink_ok h
  rw [hdirect] at hkeys
  by_cases hl : LastLink s.file j
  · exact mem_of_lastLink hl
  · have htouch : j ∈ touches s.file (.unlink path) := by
      rw [touches, hdirect]
      exact List.mem_cons_of_mem _ List.mem_cons_self
    have hmem := (hkeys j hj).mp ⟨Or.inr htouch,fun hbad => hl hbad.2⟩
    exact ((hU.keys j hj).mp hmem).1

theorem slash_of_detached (h0 : (s.file 0).isDir = false) (hU : Detached s s' e j)
    (h : myUnlink path s = (ok,s')) {d : Dirent} (hfirst : firstNamed e.2 (s.file e.1) = some d)
    (he : e.2 ≠ []) (ht : tail path = []) : e.1 = j ∧ LastLink s.file j := by
  have hdirect := direct_of_detached hU h
  obtain ⟨-,hv,-⟩ := myUnlink_ok h
  rw [(slash_parent h0 ht).2, hdirect, ht] at hv
  by_contra hcase
  have hsame : (s'.file e.1).dentries = (without s.file (j,[]) e.1).dentries := by
    rw [hv]
    by_cases hej : e.1 = j
    · rw [unlinkView_eq, if_neg (fun hl => hcase ⟨hej,hl⟩), hej, put_self]
      rfl
    · rw [unlinkView, dropLink_of_ne _ hej]
      rfl
  have hcount := count_without s.file e e.1 d
  have hkept := count_without s.file (j,[]) e.1 d
  have hname : ¬ (e.1 = j ∧ firstNamed [] (s.file e.1) = some d) := by
    rintro ⟨-,hempty⟩
    exact he ((firstNamed_mem hfirst).2.symm.trans (firstNamed_mem hempty).2)
  rw [← hU.dentries, hsame, if_pos ⟨rfl,hfirst⟩] at hcount
  rw [if_neg hname] at hkept
  omega

theorem alone_of_detached (hU : Detached s s' e j) (h : myUnlink path s = (ok,s'))
    (hl : LastLink s.file j) : (without s.file e j).dentries = [] := by
  have hdirect := direct_of_detached hU h
  obtain ⟨-,hv,-⟩ := myUnlink_ok h
  rw [← hU.dentries, hv, hdirect, unlinkView_eq, if_pos hl, Function.update_self]
  rfl

theorem separate_of_removes (h0 : (s.file 0).isDir = false) (h : myUnlink path s = (ok,s'))
    (hr : Resolve.real s.file path ≠ 0) (hm : RemovesName s s' path) :
    ∃ e, Separate s path e := by
  obtain ⟨e,d,hent,hfirst,hU,hfound⟩ := hm
  obtain rfl := Option.some.inj (hfirst.symm.trans (firstNamed_real h0 hr hent))
  have halone := alone_of_detached hU h
  refine ⟨e,hent,known_of_detached hU h hr,direct_of_detached hU h,
    slash_of_detached h0 hU h hfirst (entryOf_some hent).1,halone,?_⟩
  intro name hn hs k hk hmem hk0 hkj
  have hd : (s.file (Resolve.real s.file path)).isDir = true := by
    by_contra hno
    rw [nameIn, if_neg hno] at hk
    exact hk0 hk.symm
  have hfk : Found s.file k := hk ▸ found_child h0 ⟨path,rfl⟩ hn hs hd
  have h0' : (s'.file 0).isDir = false := (isDir_of_rest (hU.others 0 hr.symm)).trans h0
  obtain ⟨q,hq⟩ := hfound k hmem hk0 hkj hfk
  exact ⟨q,(hU.real h0 h0' halone q).symm.trans hq⟩

end Bbfs.Unlinking
