import Bbfs.Census
import Bbfs.Creating
import Bbfs.Failure
import Bbfs.Leftovers

/-!
# Taking a creation back

A file made at a free path is taken away again by the matching removal. What the
pair leaves behind depends on what was stored under the number before, on the
type bits of the mode, and on the link count of a linked file.
-/

set_option autoImplicit false

namespace Bbfs.Undoing
open Bbfs.InsertingMap
open Bbfs.Strings Bbfs.Files Bbfs.Resolve Bbfs.Calls Bbfs.Session Bbfs.Walks Bbfs.Effects
open Bbfs.Outcomes Bbfs.Numbers Bbfs.Failure Bbfs.Directories Bbfs.Census Bbfs.Creating
open Bbfs.Leftovers

/-- The second call of a pair returns ok and leaves the table as it was before
the first. -/
def Undone (s : Fs) (x : ℤ × Fs) : Prop := x.1 = ok ∧ SameTable s x.2

variable {v : View} {s s' : Fs} {env : Env} {p q name : Str} {f : File} {i k : ℕ}
variable {mode kind : Mode}

theorem dropNamed_push (h : under name f = []) (i : ℕ) :
    (f.push ⟨name,i⟩).dropNamed name = f := by
  rw [File.dropNamed, File.push_dentries, List.eraseP_append_right _ (not_named_of_under h),
    List.eraseP_cons_of_pos (by simp), List.append_nil]
  rfl

theorem dropIno_push (h : ∀ d ∈ f.dentries, d.dIno ≠ i) (name : Str) :
    (f.push ⟨name,i⟩).dropIno i = f := by
  have hnone : ∀ d ∈ f.dentries, ¬ (d.dIno == i) = true := by
    intro d hd hn
    exact h d hd (by simpa using hn)
  rw [File.dropIno, File.push_dentries, List.eraseP_append_right _ hnone,
    List.eraseP_cons_of_pos (by simp), List.append_nil]
  rfl

/-- What a creation at a free path leaves: the directory has one more entry, for
the new file, which is found there. -/
structure Entered (s s' : Fs) (q : Str) (kind : Mode) (f : File) : Prop where
  new : NewFile s.count kind f
  data : f.data = (s.file s.count).data
  dots : f.dentries = dotEntries s.count (real s.file (parentPath q)) f
  view : s'.file = enterView s.file s.count (real s.file (parentPath q)) (tail q) f
  keys : ∀ k, k ≠ 0 → (k ∈ s'.keys ↔ k = s.count ∨ k ∈ s.keys)
  found : real s'.file q = s.count
  parent : real s'.file (parentPath q) = real s.file (parentPath q)
  dir : (s'.file (real s.file (parentPath q))).isDir = true

theorem mknod_entered {dev : ℕ} (hs : Settled s) (hf : Free s.file q)
    (h : myMknod env q mode dev s = (ok,s')) : ∃ f, Entered s s' q (typeBits mode) f := by
  have hu := untyped hs.sentinel
  have hfr := hs.fresh
  have hat := resolve_dir hf.1
  obtain ⟨-,-,hkeys,f,hnew,⟨-,hdata⟩,hcase⟩ := myMknod_effect hs h
  obtain ⟨-,hgo,hdots,hv⟩ := hcase.resolve_left (fun hbad => absurd hbad.1 (by decide))
  rw [hat] at hdots hv
  have hX := hfr.real_ne (parentPath q)
  have hatt : Attached s.file s'.file (resolve s.file (parentPath q)) (tail q) s.count := by
    rw [hat, hv]
    exact attached_enter hs _ f
  have htype : (s'.file (real s.file (parentPath q))).isDir =
      (s.file (real s.file (parentPath q))).isDir := by
    rw [hv, entered_isDir hX]
  have hguard := guarded_path hu.1 hu.2.2 hgo.1 hgo.2
  have hparent : real s'.file (parentPath q) = real s.file (parentPath q) :=
    hatt.walk hu.1 _ 2 hguard.2
  refine ⟨f,hnew,hdata,hdots,hv,?_,?_,hparent,htype.trans hf.1⟩
  · intro k hk
    rw [← hkeys k hk, Set.mem_insert_iff]
    apply or_congr_right
    constructor
    · rintro (hmem | hmem)
      · exact hmem
      · exact (hf.touches hs hguard.1 hmem).resolve_left hk
    · exact Or.inl
  · exact ((hatt.real_iff hu.1 hu.2.2 hgo.1 hgo.2 hfr.ne_zero htype).mpr hf).1

theorem Entered.file (he : Entered s s' q kind f) (hs : Settled s) : s'.file s.count = f := by
  rw [he.view]
  exact entered_new (hs.fresh.real_ne _) _ f

theorem Entered.restored (he : Entered s s' q kind f) {g : File → File}
    (hg : ∀ d : File, d = s.file (real s.file (parentPath q)) →
      g (d.push ⟨tail q,s.count⟩) = d) (hs : Settled s) (hk : k ≠ s.count) :
    put s'.file (real s.file (parentPath q)) g k = s.file k := by
  have hX := hs.fresh.real_ne (parentPath q)
  by_cases hkX : k = real s.file (parentPath q)
  · subst hkX
    rw [put_self, he.view, enterView, put_self, Function.update_of_ne hX]
    exact hg _ rfl
  · rw [put_of_ne _ _ hkX, he.view, enterView, put_of_ne _ _ hkX, Function.update_of_ne hk]

theorem sameTable_new_iff (hs : Settled s) (hk : ∀ k, k ≠ 0 → (k ∈ s'.keys ↔ k ∈ s.keys ∧
      k ≠ s.count)) (hv : ∀ k, k ≠ s.count → s'.file k = s.file k)
    (hd : s'.file s.count = default) : SameTable s s' ↔ s.count ∉ s.entry := by
  rw [sameTable_iff]
  constructor
  · rintro ⟨hkeys,-⟩ hmem
    have hn := hs.fresh.ne_zero
    exact ((hk _ hn).mp ((hkeys _ hn).mpr hmem)).2 rfl
  · intro hout
    constructor
    · intro k h0
      rw [hk k h0]
      exact and_iff_left_of_imp (fun hmem he => hout (he ▸ hmem))
    · intro k _
      by_cases hkn : k = s.count
      · subst hkn
        rw [hd, Fs.file, read_of_notMem hout]
      · exact hv k hkn

theorem Entered.lastLink (he : Entered s s' q kind f) (hs : Settled s) :
    LastLink s'.file s.count := by
  rw [lastLink_iff, he.file hs, he.new.nlink]

theorem Entered.dropped (he : Entered s s' q kind f) (hs : Settled s) {c : Call} {t : Fs}
    (hkeys : SameKeys (dropKey s'.file s.count (touched s'.file s'.keys c)) t.keys)
    (ht : ∀ k ∈ touches s'.file c, k = s.count ∨ k ∈ s.keys) (h0 : k ≠ 0) :
    k ∈ t.keys ↔ k ∈ s.keys ∧ k ≠ s.count := by
  rw [← hkeys k h0, mem_dropKey, touched, Set.mem_ofPred_eq, he.keys k h0]
  constructor
  · rintro ⟨(hk | hk) | hk,hne⟩
    · exact absurd ⟨hk,he.lastLink hs⟩ hne
    · exact ⟨hk,fun hn => hne ⟨hn,he.lastLink hs⟩⟩
    · have hn : k ≠ s.count := fun hn => hne ⟨hn,he.lastLink hs⟩
      exact ⟨(ht k hk).resolve_left hn,hn⟩
  · rintro ⟨hk,hne⟩
    exact ⟨Or.inl (Or.inr hk),fun hn => hne hn.1⟩

theorem Entered.resolve_parent (he : Entered s s' q kind f) :
    resolve s'.file (parentPath q) = real s.file (parentPath q) := by
  rw [← he.parent]
  apply resolve_dir
  rw [he.parent]
  exact he.dir

theorem Entered.resolve (he : Entered s s' q kind f) (hs : Settled s) (hl : f.isLnk = false) :
    resolve s'.file q = s.count := by
  rw [← he.found]
  apply resolve_not_lnk
  rw [he.found, he.file hs]
  exact hl

def looks (v : View) (q : Str) : List ℕ :=
  [real v q,resolve v q,real v (parentPath q),resolve v (parentPath q)]

theorem unlink_looks (hk : k ∈ touches v (.unlink q)) : k ∈ looks v q := by
  simp only [touches] at hk
  split_ifs at hk <;> simp at hk <;> simp [looks] <;> tauto

theorem rmdir_looks (hk : k ∈ touches v (.rmdir q)) : k ∈ looks v q := by
  simp only [touches] at hk
  split_ifs at hk <;> simp at hk <;> simp [looks] <;> tauto

theorem Entered.looks (he : Entered s s' q kind f) (hs : Settled s) (hf : Free s.file q)
    (hl : f.isLnk = false) (hk : k ∈ looks s'.file q) : k = s.count ∨ k ∈ s.keys := by
  have hX : real s.file (parentPath q) ∈ s.keys := mem_of_isDir hf.1
  rw [Undoing.looks, he.found, he.resolve hs hl, he.parent, he.resolve_parent] at hk
  simp only [List.mem_cons, List.not_mem_nil, or_false] at hk
  rcases hk with hk | hk | rfl | rfl
  · exact Or.inl hk
  · exact Or.inl hk
  · exact Or.inr hX
  · exact Or.inr hX

theorem Entered.unlinked (he : Entered s s' q kind f) (hs : Settled s) (hf : Free s.file q)
    (hl : f.isLnk = false) (hd : ¬ IsDots (tail q)) :
    Undone s (myUnlink q s') ↔ s.count ∉ s.entry := by
  have hres := he.resolve hs hl
  have hgo : Proceeds s'.file (.unlink q) := ⟨by rw [hres]; exact hs.fresh.ne_zero,hd⟩
  obtain ⟨t,hu⟩ := myUnlink_proceeds hgo
  rw [hu]
  obtain ⟨-,hv,hkeys⟩ := myUnlink_ok hu
  rw [hres, he.resolve_parent] at hv
  rw [hres] at hkeys
  rw [unlinkView_eq, if_pos (he.lastLink hs)] at hv
  rw [Undone, and_iff_right rfl]
  apply sameTable_new_iff hs
  · intro k h0
    apply he.dropped hs hkeys _ h0
    exact fun k hk => he.looks hs hf hl (unlink_looks hk)
  · intro k hk
    rw [hv, Function.update_of_ne hk]
    apply he.restored _ hs hk
    rintro d rfl
    exact dropNamed_push hf.2 s.count
  · rw [hv, Function.update_self]

theorem Entered.removed (he : Entered s s' q kind f) (hs : Settled s) (hf : Free s.file q)
    (hdir : f.isDir = true) : Undone s (myRmdir q s') ↔ s.count ∉ s.entry := by
  have hres := he.resolve hs ((type_exclusive f).1 hdir).2
  have hgo : Proceeds s'.file (.rmdir q) := by
    rw [Proceeds, hres, he.file hs, he.dots, dotEntries, if_pos hdir]
    exact ⟨hdir,le_rfl⟩
  obtain ⟨t,hu⟩ := myRmdir_proceeds hgo
  rw [hu]
  obtain ⟨-,hv,hkeys⟩ := myRmdir_ok hu
  rw [hres, he.resolve_parent, rmdirView, if_pos (he.lastLink hs)] at hv
  rw [hres] at hkeys
  rw [Undone, and_iff_right rfl]
  apply sameTable_new_iff hs
  · intro k h0
    apply he.dropped hs hkeys _ h0
    exact fun k hk => he.looks hs hf ((type_exclusive f).1 hdir).2 (rmdir_looks hk)
  · intro k hk
    rw [hv, Function.update_of_ne hk]
    apply he.restored _ hs hk
    rintro d rfl
    exact dropIno_push (hs.fresh.unnamed _) (tail q)
  · rw [hv, Function.update_self]

/-- A link without a target leads to the root, or cannot be read. -/
theorem follow_zeroed (hz : Zeroed (v k)) (hl : (v k).isLnk = true) :
    follow v k = 2 ∨ follow v k = errIno := by
  have hempty : ∀ str : Str, (∀ c ∈ str, c = '\x00') → cstr str = [] := by
    intro str hstr
    cases str with
    | nil => rfl
    | cons c cs =>
      have hc := hstr c List.mem_cons_self
      rw [cstr, List.takeWhile_cons_of_neg (by simp [hc])]
  have htext : linkText (v k) = none ∨ linkText (v k) = some [] := by
    unfold linkText
    rw [hempty _ hz, hempty _ (fun c hc => hz c (List.mem_of_mem_take hc))]
    split_ifs <;> simp
  rw [follow, if_pos hl]
  split_ifs
  · exact Or.inr rfl
  · rcases htext with ht | ht
    · rw [ht]
      exact Or.inr rfl
    · rw [ht]
      exact Or.inl rfl

/-- A new file that reads as a link is not what its name resolves to, and stays. -/
theorem Entered.lnk_stays (he : Entered s s' q kind f) (hs : Settled s) (hb : Blank s)
    (hl : f.isLnk = true) : ¬ Undone s (myUnlink q s') := by
  have hfr := hs.fresh
  have hne : Resolve.resolve s'.file q ≠ s.count := by
    have hz : Zeroed (s'.file s.count) := by
      rw [he.file hs, Zeroed, he.data]
      exact hb.spare s.count le_rfl hfr.ne_err
    rw [Resolve.resolve, he.found]
    rcases follow_zeroed hz (by rw [he.file hs]; exact hl) with h2 | herr
    · rw [h2]
      exact hfr.ne_root.symm
    · rw [herr]
      exact hfr.ne_err.symm
  rcases hu : myUnlink q s' with ⟨r,t⟩
  rintro ⟨hr,hsame⟩
  obtain rfl : r = ok := hr
  obtain ⟨-,hv,-⟩ := myUnlink_ok hu
  have hfile : t.file s.count = f := by
    rw [hv, unlinkView, dropLink_of_ne _ hne.symm, he.resolve_parent,
      put_of_ne _ _ (hfr.real_ne _).symm, he.file hs]
  exact not_sameTable_of_new hs hfile he.new.ino hsame

theorem creat_undone_iff (hs : Settled s) (hb : Blank s) (hf : Free s.file q)
    (h : myCreat env q mode s = (ok,s')) : Undone s (myUnlink q s') ↔
      s.count ∉ s.entry ∧ typeBits (S_IFREG ||| mode) ≠ S_IFLNK := by
  rw [myCreat] at h
  split_ifs at h with hd
  · exact absurd (congrArg Prod.fst h) err_ne_ok
  obtain ⟨f,he⟩ := mknod_entered hs hf h
  have hlnk : f.isLnk = true ↔ typeBits (S_IFREG ||| mode) = S_IFLNK := by
    rw [File.isLnk, S_ISLNK_eq, he.new.type, beq_iff_eq]
  by_cases hl : f.isLnk = true
  · exact iff_of_false (he.lnk_stays hs hb hl) (fun hc => hc.2 (hlnk.mp hl))
  · rw [he.unlinked hs hf (Bool.eq_false_iff.mpr hl) hd]
    exact (and_iff_left (fun ht => hl (hlnk.mpr ht))).symm

theorem typeBits_dir_ne_lnk (mode : Mode) : typeBits (S_IFDIR ||| mode) ≠ S_IFLNK := by
  intro h
  have hbit := congrArg (fun m : Mode => m.getLsbD 14) h
  rw [typeBits_or] at hbit
  simp only [BitVec.getLsbD_or] at hbit
  have hset : (typeBits S_IFDIR).getLsbD 14 = true := by decide
  have hclear : S_IFLNK.getLsbD 14 = false := by decide
  rw [hset, hclear] at hbit
  simp at hbit

theorem mkdir_undone_iff (hs : Settled s) (hf : Free s.file q)
    (h : myMkdir env q mode s = (ok,s')) : Undone s (myRmdir q s') ↔
      s.count ∉ s.entry ∧ typeBits (S_IFDIR ||| mode) = S_IFDIR := by
  obtain ⟨f,he⟩ := mknod_entered hs hf h
  have hdir : f.isDir = true ↔ typeBits (S_IFDIR ||| mode) = S_IFDIR := by
    rw [File.isDir, S_ISDIR_eq, he.new.type, beq_iff_eq]
  by_cases hd : f.isDir = true
  · rw [he.removed hs hf hd]
    exact (and_iff_left (hdir.mp hd)).symm
  · refine iff_of_false ?_ (fun hc => hd (hdir.mpr hc.2))
    have hl : f.isLnk = false := by
      rw [File.isLnk, S_ISLNK_eq, he.new.type, beq_eq_false_iff_ne]
      exact typeBits_dir_ne_lnk mode
    rintro ⟨hok,-⟩
    have hgo := (myRmdir_ok_iff.mp hok).1
    rw [he.resolve hs hl, he.file hs] at hgo
    exact hd hgo

structure Linked (s s' : Fs) (q : Str) (i : ℕ) : Prop where
  number : i ≠ 0
  reg : (s.file i).isReg = true
  dir : (s.file (real s.file (parentPath q))).isDir = true
  view : s'.file = linkView s.file (real s.file (parentPath q)) (tail q) i
  keys : ∀ k, k ≠ 0 → (k ∈ s'.keys ↔ k ∈ s.keys)
  found : real s'.file q = i
  parent : real s'.file (parentPath q) = real s.file (parentPath q)

theorem link_looks (hk : k ∈ touches v (.link p q)) :
    k ∈ [real v p,resolve v p,real v (parentPath q),real v q,resolve v (parentPath q)] := by
  simp only [touches] at hk
  split_ifs at hk <;> simp at hk <;> simp <;> tauto

theorem link_linked (hs : Settled s) (hf : Free s.file q) (h : myLink p q s = (ok,s')) :
    Linked s s' q (resolve s.file p) := by
  have hu := untyped hs.sentinel
  have hat := resolve_dir hf.1
  obtain ⟨⟨hi,hreg,hP,hq⟩,hv,hkeys⟩ := myLink_ok h
  have hguard := guarded_path hu.1 hu.2.2 hP hq
  have hatt := attached_link hu.1 (Resolve.resolve s.file (parentPath q))
    (Resolve.resolve s.file p) (tail q)
  rw [← hv] at hatt
  have htype : (s'.file (real s.file (parentPath q))).isDir =
      (s.file (real s.file (parentPath q))).isDir := by
    rw [hv, linkView_isDir]
  refine ⟨hi,hreg,hf.1,by rw [hv, hat],?_,((hatt.real_iff hu.1 hu.2.2 hP hq hi htype).mpr hf).1,
    hatt.walk hu.1 _ 2 hguard.2⟩
  intro k hk
  rw [← hkeys k hk, touched, Set.mem_ofPred_eq]
  apply or_iff_left_of_imp
  intro hmem
  have hI : Resolve.resolve s.file p ∈ s.keys := mem_of_isReg hreg
  have hX : real s.file (parentPath q) ∈ s.keys := mem_of_isDir hf.1
  have hlook := link_looks hmem
  rw [hf.real hs hguard.1, hat] at hlook
  simp only [List.mem_cons, List.not_mem_nil, or_false] at hlook
  rcases hlook with rfl | rfl | rfl | rfl | rfl
  · exact (real_mem s p).elim (fun he => he ▸ hI) id
  · exact hI
  · exact hX
  · exact absurd rfl hk
  · exact hX

theorem Linked.ne (h : Linked s s' q i) : i ≠ real s.file (parentPath q) := by
  rintro rfl
  have hno := isDir_of_isReg h.reg
  rw [h.dir] at hno
  exact Bool.false_ne_true hno.symm

theorem Linked.file (h : Linked s s' q i) : s'.file i = (s.file i).setStat incNlink := by
  rw [h.view, linkView, put_of_ne _ _ h.ne, put_self]

theorem Linked.resolve (h : Linked s s' q i) : resolve s'.file q = i := by
  rw [← h.found]
  apply resolve_not_lnk
  rw [h.found, h.file]
  exact (type_exclusive (s.file i)).2 h.reg

theorem Linked.resolve_parent (h : Linked s s' q i) :
    Resolve.resolve s'.file (parentPath q) = real s.file (parentPath q) := by
  rw [← h.parent]
  apply resolve_dir
  rw [h.parent, h.view, linkView_isDir]
  exact h.dir

theorem Linked.dropped (h : Linked s s' q i) (hf : Free s.file q) :
    put s'.file (real s.file (parentPath q)) (File.dropNamed (tail q)) =
      put s.file i (File.setStat incNlink) := by
  funext k
  by_cases hk : k = real s.file (parentPath q)
  · subst hk
    rw [put_self, h.view, linkView, put_self, put_of_ne _ _ h.ne.symm, dropNamed_push hf.2]
  · rw [put_of_ne _ _ hk, h.view, linkView, put_of_ne _ _ hk]

theorem Linked.lastLink_iff (h : Linked s s' q i) :
    LastLink s'.file i ↔ (s.file i).metadata.stNlink = 0 := by
  have hpush : ∀ f : File, (f.push ⟨tail q,i⟩).metadata.stNlink = f.metadata.stNlink :=
    fun _ => rfl
  rw [h.view, linkView, lastLink_put hpush, lastLink_inc]

theorem Linked.unlinked (h : Linked s s' q i) (hf : Free s.file q) (hd : ¬ IsDots (tail q)) :
    Undone s (myUnlink q s') ↔ (s.file i).metadata.stNlink ≠ 0 := by
  have hgo : Proceeds s'.file (.unlink q) := ⟨by rw [h.resolve]; exact h.number,hd⟩
  obtain ⟨t,hu⟩ := myUnlink_proceeds hgo
  rw [hu]
  obtain ⟨-,hv,hkeys⟩ := myUnlink_ok hu
  rw [h.resolve, h.resolve_parent, unlinkView, h.dropped hf] at hv
  rw [h.resolve] at hkeys
  have hI : i ∈ s.keys := mem_of_isReg h.reg
  have hX : real s.file (parentPath q) ∈ s.keys := mem_of_isDir h.dir
  have hlooks : ∀ k ∈ touches s'.file (.unlink q), k ∈ s.keys := by
    intro k hk
    have hlook := unlink_looks hk
    rw [looks, h.found, h.resolve, h.parent, h.resolve_parent] at hlook
    simp only [List.mem_cons, List.not_mem_nil, or_false] at hlook
    rcases hlook with rfl | rfl | rfl | rfl
    · exact hI
    · exact hI
    · exact hX
    · exact hX
  have hkeys' : ∀ k, k ≠ 0 →
      (k ∈ t.keys ↔ k ∈ s.keys ∧ ¬ (k = i ∧ (s.file i).metadata.stNlink = 0)) := by
    intro k h0
    rw [← hkeys k h0, mem_dropKey, h.lastLink_iff, touched, Set.mem_ofPred_eq, h.keys k h0]
    apply and_congr_left'
    exact or_iff_left_of_imp (hlooks k)
  rw [Undone, and_iff_right rfl, sameTable_iff]
  constructor
  · rintro ⟨hsame,-⟩ hn
    have hmem := (hsame i h.number).mpr hI
    exact ((hkeys' i h.number).mp hmem).2 ⟨rfl,hn⟩
  · intro hn
    constructor
    · intro k h0
      rw [hkeys' k h0]
      exact and_iff_left (fun hlost => hn hlost.2)
    · intro k _
      rw [hv, dropLink, if_neg (fun hl => hn (lastLink_inc.mp hl))]
      by_cases hk : k = i
      · subst hk
        rw [put_self, put_self, dec_inc]
      · rw [put_of_ne _ _ hk, put_of_ne _ _ hk]

theorem link_undone_iff (hs : Settled s) (hf : Free s.file q) (h : myLink p q s = (ok,s')) :
    Undone s (myUnlink q s') ↔
      (s.file (resolve s.file p)).metadata.stNlink ≠ 0 ∧ ¬ IsDots (tail q) := by
  have hl := link_linked hs hf h
  by_cases hd : IsDots (tail q)
  · refine iff_of_false ?_ (fun hc => hc.2 hd)
    rintro ⟨hok,-⟩
    exact (myUnlink_ok_iff.mp hok).2 hd
  · rw [hl.unlinked hf hd]
    exact (and_iff_left hd).symm

end Bbfs.Undoing
