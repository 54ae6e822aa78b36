import Bbfs.Census
import Bbfs.Outcomes

/-!
# Files under links and unlinks

Along plain paths `my_unlink` takes away exactly the entry whose file it
decrements. The one thing that disturbs the count is a regular file that has
entries of its own: they go with it.
-/

set_option autoImplicit false

namespace Bbfs.Survival
open Bbfs.Strings Bbfs.Files Bbfs.Resolve Bbfs.Calls Bbfs.Session Bbfs.Walks Bbfs.Effects
open Bbfs.Outcomes Bbfs.Numbers Bbfs.Directories Bbfs.Runs Bbfs.Counting Bbfs.Census

def namesIno (i : ℕ) (d : Dirent) : Bool := d.dIno == i

/-- The prefix of the path leads to a directory, and its last segment is not
empty and no link. -/
def Straight (v : View) (path : Str) : Prop :=
  (v (real v (parentPath path))).isDir = true ∧ tail path ≠ [] ∧
    (v (real v path)).isLnk = false

instance (v : View) (path : Str) : Decidable (Straight v path) :=
  inferInstanceAs (Decidable (_ ∧ _))

inductive NameOp where
  | link (path newpath : Str)
  | unlink (path : Str)

namespace NameOp

def run : NameOp → Fs → Fs
  | link path newpath, s => (myLink path newpath s).2
  | unlink path, s => (myUnlink path s).2

/-- Straight paths, and only regular files are unlinked. -/
def Admissible (v : View) : NameOp → Prop
  | link path newpath => Straight v path ∧ Straight v newpath
  | unlink path => Straight v path ∧
    (Proceeds v (.unlink path) → (v (real v path)).isReg = true)

instance (v : View) (op : NameOp) : Decidable (op.Admissible v) := by
  induction op using NameOp.casesOn <;> unfold Admissible <;> infer_instance

/-- A file that is unlinked for the last time has no entries for regular
files. -/
def Spares (v : View) : NameOp → Prop
  | link _ _ => True
  | unlink path => Proceeds v (.unlink path) → LastLink v (real v path) →
    ∀ d ∈ (v (real v path)).dentries, (v d.dIno).isReg = false

instance (v : View) (op : NameOp) : Decidable (op.Spares v) := by
  induction op using NameOp.casesOn <;> unfold Spares <;> infer_instance

end NameOp

def nameStep (op : NameOp) (s : Fs) : Option Fs :=
  if op.Admissible s.file then some (op.run s) else none

def spares (op : NameOp) (s : Fs) : Prop := op.Spares s.file

instance (op : NameOp) (s : Fs) : Decidable (spares op s) :=
  inferInstanceAs (Decidable (op.Spares s.file))

def CountsNames (s : Fs) : Prop :=
  ∀ i, (s.file i).isReg = true → (s.file i).metadata.stNlink = namings (namesIno i) s

/-- A regular file of `s₀` is in the table as long as an entry names it, and
but for the link count it is what it was. -/
def Kept (s₀ s : Fs) (i : ℕ) : Prop :=
  (i ∈ s.entry ↔ 0 < namings (namesIno i) s) ∧
    (i ∈ s.entry → (s.file i).data = (s₀.file i).data ∧ (s.file i).xattr = (s₀.file i).xattr ∧
      (s.file i).metadata =
        { (s₀.file i).metadata with stNlink := namings (namesIno i) s })

def Survives (s₀ s : Fs) : Prop := ∀ i, (s₀.file i).isReg = true → Kept s₀ s i

variable {s₀ s s' : Fs} {v w : View} {i : ℕ} {path : Str}

def Modes (v₀ v : View) : Prop :=
  ∀ i, (v i).metadata.stMode = 0 ∨ (v i).metadata.stMode = (v₀ i).metadata.stMode

theorem Modes.isReg (h : Modes s₀.file v) (hr : (v i).isReg = true) :
    (s₀.file i).isReg = true := by
  rw [File.isReg] at hr ⊢
  rcases h i with hz | hm
  · rw [hz] at hr
    exact absurd hr (by decide)
  · rwa [← hm]

theorem Modes.isDir (h : Modes s₀.file v) (hd : (v i).isDir = true) :
    (s₀.file i).isDir = true := by
  rw [File.isDir] at hd ⊢
  rcases h i with hz | hm
  · rw [hz] at hd
    exact absurd hd (by decide)
  · rwa [← hm]

theorem Modes.put (h : Modes s₀.file v) (k : ℕ) {g : File → File}
    (hg : (g (v k)).metadata.stMode = (v k).metadata.stMode) : Modes s₀.file (put v k g) := by
  intro j
  by_cases hj : j = k
  · subst hj
    rw [put_self, hg]
    exact h j
  · rw [put_of_ne _ _ hj]
    exact h j

theorem Modes.erase (h : Modes s₀.file v) (k : ℕ) :
    Modes s₀.file (Function.update v k default) := by
  intro j
  by_cases hj : j = k
  · subst hj
    rw [Function.update_self]
    exact Or.inl rfl
  · rw [Function.update_of_ne hj]
    exact h j

theorem Straight.resolve (h : Straight v path) : resolve v path = real v path :=
  resolve_not_lnk h.2.2

theorem Straight.parent (h : Straight v path) :
    Resolve.resolve v (parentPath path) = real v (parentPath path) :=
  resolve_dir h.1

theorem Straight.root (h : Straight v path) (h0 : (v 0).isDir = false) : (v 2).isDir = true := by
  have hd := h.1
  by_contra h2
  rcases walk_not_dir (by simpa using h2) (segments (parentPath path)) with hw | hw
  · rw [real, hw] at hd
    exact h2 hd
  · rw [real, hw, h0] at hd
    exact Bool.false_ne_true hd

theorem real_named (path : Str) (h0 : real s.file path ≠ 0) (h2 : real s.file path ≠ 2) :
    0 < namings (namesIno (real s.file path)) s := by
  rcases real_origin (v := s.file) path with h | h | ⟨k,-,d,hd,hi⟩
  · exact absurd h h0
  · exact absurd h h2
  · apply namings_pos.mpr
    exact ⟨k,d,hd,by rw [namesIno, hi, beq_self_eq_true]⟩

theorem mem_touched {c : Call} (hk : Kept s₀ s i) (h0 : i ≠ 0) (h2 : i ≠ 2)
    (ht : ∀ k ∈ touches s.file c, ∃ p, k = real s.file p) :
    i ∈ touched s.file s.keys c ↔ i ∈ s.entry := by
  constructor
  · rintro (hi | hi)
    · exact hi
    · obtain ⟨p,rfl⟩ := ht i hi
      exact hk.1.mpr (real_named p h0 h2)
  · exact Or.inl

theorem link_touches {path newpath : Str} (hp : Straight v path) (hq : Straight v newpath) :
    ∀ k ∈ touches v (.link path newpath), ∃ p, k = real v p := by
  intro k hk
  simp only [touches, hp.resolve, hq.parent] at hk
  split_ifs at hk <;> simp only [List.mem_cons, List.not_mem_nil, or_false] at hk <;> grind

theorem unlink_touches {path : Str} (hp : Straight v path) :
    ∀ k ∈ touches v (.unlink path), ∃ p, k = real v p := by
  intro k hk
  simp only [touches, hp.resolve, hp.parent] at hk
  split_ifs at hk <;> simp only [List.mem_cons, List.not_mem_nil, or_false] at hk <;> grind

theorem Kept.of_same_at (h : Kept s₀ s i) (hf : s'.file i = s.file i)
    (hn : namings (namesIno i) s' = namings (namesIno i) s) (hk : i ∈ s'.entry ↔ i ∈ s.entry) :
    Kept s₀ s' i := by
  unfold Kept
  rw [hk, hf, hn]
  exact h

theorem Kept.of_same (h : Kept s₀ s i) (hf : s'.file = s.file) (hk : i ∈ s'.entry ↔ i ∈ s.entry) :
    Kept s₀ s' i :=
  h.of_same_at (congrFun hf i) (namings_congr (congrArg entries hf)) hk

theorem regular_number (hm : Modes s₀.file s.file) (h0 : typeBits (s₀.file 0).metadata.stMode = 0)
    (hp : Straight s.file path) (hr : (s₀.file i).isReg = true) : i ≠ 0 ∧ i ≠ 2 := by
  have hz := untyped h0
  have hs0 : (s.file 0).isDir = false := by
    by_contra hd
    simp [hm.isDir (by simpa using hd)] at hz
  constructor
  · rintro rfl
    simp [hz.2.1] at hr
  · rintro rfl
    exact Bool.false_ne_true ((isDir_of_isReg hr).symm.trans (hm.isDir (hp.root hs0)))

theorem Kept.linked (h : Kept s₀ s i) (hi : i ∈ s.entry) (hi' : i ∈ s'.entry)
    (hf : s'.file i = (s.file i).setStat incNlink)
    (hn : namings (namesIno i) s' = namings (namesIno i) s+1) : Kept s₀ s' i := by
  obtain ⟨hdata,hxattr,hmeta⟩ := h.2 hi
  refine ⟨iff_of_true hi' (by omega),fun _ => ?_⟩
  rw [hf, hn]
  refine ⟨hdata,hxattr,?_⟩
  rw [File.setStat_metadata, hmeta]
  rfl

theorem link_survives {newpath : Str} (hm : Modes s₀.file s.file)
    (h0 : typeBits (s₀.file 0).metadata.stMode = 0) (hg : Survives s₀ s)
    (ha : (NameOp.link path newpath).Admissible s.file) :
    Survives s₀ ((NameOp.link path newpath).run s) := by
  obtain ⟨hp,hq⟩ := ha
  rcases h : myLink path newpath s with ⟨r,s'⟩
  rw [NameOp.run, h]
  obtain ⟨hkeys,hview⟩ := (myLink_did h).1.link
  have hsame : ∀ i, (s₀.file i).isReg = true → (i ∈ s'.entry ↔ i ∈ s.entry) := by
    intro i hr
    obtain ⟨hi0,hi2⟩ := regular_number hm h0 hp hr
    rw [← mem_touched (hg i hr) hi0 hi2 (link_touches hp hq)]
    exact (hkeys i hi0).symm
  rcases hview with ⟨-,hv⟩ | ⟨hgo,hv⟩
  · exact fun i hr => (hg i hr).of_same hv (hsame i hr)
  rw [linkView, hp.resolve, hq.parent] at hv
  have hreg : (s.file (real s.file path)).isReg = true := hp.resolve ▸ hgo.2.1
  have hdirs : ∀ {i}, (s₀.file i).isReg = true → i ≠ real s.file (parentPath newpath) := by
    rintro i hr rfl
    exact Bool.false_ne_true ((isDir_of_isReg hr).symm.trans (hm.isDir hq.1))
  have hnum := fun i => namings_linked (p := namesIno i) (mem_of_isDir hq.1) hv
  intro i hr
  have hiP := hdirs hr
  by_cases hij : i = real s.file path
  · subst hij
    have hi := mem_of_isReg hreg
    apply (hg _ hr).linked hi ((hsame _ hr).mpr hi)
    · rw [hv, put_of_ne _ _ hiP, put_self]
    · rw [hnum, namesIno, beq_self_eq_true, if_pos rfl]
  · have hno : namesIno i ⟨tail newpath,real s.file path⟩ = false := by
      rw [namesIno, beq_eq_false_iff_ne]
      exact fun he => hij he.symm
    apply (hg i hr).of_same_at _ _ (hsame i hr)
    · rw [hv, put_of_ne _ _ hiP, put_of_ne _ _ hij]
    · rw [hnum, hno]
      rfl

structure Unlinked (s₀ s s' : Fs) (j : ℕ) : Prop where
  reg : (s.file j).isReg = true
  other : ∀ i, (s₀.file i).isReg = true → i ≠ j → s'.file i = s.file i
  self : ¬ LastLink s.file j → s'.file j = (s.file j).setStat decNlink
  present : ∀ i, (s₀.file i).isReg = true →
    (i ∈ s'.entry ↔ i ∈ s.entry ∧ ¬ (i = j ∧ LastLink s.file j))
  count : ∀ i, namings (namesIno i) s'+(if j = i then 1 else 0)+
    (if LastLink s.file j then (s.file j).dentries.countP (namesIno i) else 0) =
      namings (namesIno i) s

theorem unlinked_facts {r : ℤ} (hm : Modes s₀.file s.file)
    (h0 : typeBits (s₀.file 0).metadata.stMode = 0) (hg : Survives s₀ s)
    (ha : (NameOp.unlink path).Admissible s.file) (hgo : Proceeds s.file (.unlink path))
    (h : myUnlink path s = (r,s')) : Unlinked s₀ s s' (real s.file path) := by
  obtain ⟨hp,hreg⟩ := ha
  have hj := hreg hgo
  have hj0 : real s.file path ≠ 0 := hp.resolve ▸ hgo.1
  obtain ⟨-,hv,hkeys⟩ := (myUnlink_did h).1.unlink.resolve_left (fun hstop => hstop.1 hgo)
  rw [hp.resolve] at hv hkeys
  rw [hp.parent] at hv
  have hdirs : ∀ {i}, (s₀.file i).isReg = true → i ≠ real s.file (parentPath path) := by
    rintro i hr rfl
    exact Bool.false_ne_true ((isDir_of_isReg hr).symm.trans (hm.isDir hp.1))
  have hjP := hdirs (hm.isReg hj)
  -- the entry erased is the one that was resolved
  obtain ⟨d,hd,hdi⟩ := firstNamed_of_nameIn (real_found hp.2.1 hj0).2 hj0
  refine ⟨hj,?_,?_,?_,?_⟩
  · intro i hr hij
    rw [hv, unlinkView, dropLink_of_ne _ hij, put_of_ne _ _ (hdirs hr)]
  · intro hl
    rw [hv, unlinkView_eq, if_neg hl, put_self, put_of_ne _ _ hjP]
  · intro i hr
    obtain ⟨hi0,hi2⟩ := regular_number hm h0 hp hr
    rw [← mem_touched (hg i hr) hi0 hi2 (unlink_touches hp)]
    exact (hkeys i hi0).symm
  · intro i
    rw [← namings_unlinked (mem_of_isDir hp.1) (mem_of_isReg hj) hjP hv, hd,
      Option.toList_some, List.countP_singleton, namesIno, hdi]
    simp only [beq_iff_eq]

variable {j : ℕ}

theorem Unlinked.last_iff (hu : Unlinked s₀ s s' j) (hk : Kept s₀ s j) :
    LastLink s.file j ↔ namings (namesIno j) s = 1 := by
  rw [lastLink_iff, (hk.2 (mem_of_isReg hu.reg)).2.2]

theorem Unlinked.kept_self (hu : Unlinked s₀ s s' j) (hk : Kept s₀ s j)
    (hr : (s₀.file j).isReg = true) : Kept s₀ s' j := by
  have hj := mem_of_isReg hu.reg
  have hpos := hk.1.mp hj
  have hcount := hu.count j
  rw [if_pos rfl] at hcount
  have hpresent := hu.present j hr
  by_cases hl : LastLink s.file j
  · have hone := (hu.last_iff hk).mp hl
    have hgone : j ∉ s'.entry := by
      rw [hpresent]
      exact fun hc => hc.2 ⟨rfl,hl⟩
    exact ⟨iff_of_false hgone (by omega),fun hc => absurd hc hgone⟩
  · have hmore : namings (namesIno j) s ≠ 1 := fun hone => hl ((hu.last_iff hk).mpr hone)
    rw [if_neg hl] at hcount
    have hstay : j ∈ s'.entry := hpresent.mpr ⟨hj,fun hc => hl hc.2⟩
    refine ⟨iff_of_true hstay (by omega),fun _ => ?_⟩
    obtain ⟨hdata,hxattr,hmeta⟩ := hk.2 hj
    rw [hu.self hl]
    refine ⟨hdata,hxattr,?_⟩
    have hdec : decrement (namings (namesIno j) s) = namings (namesIno j) s' := by
      rw [decrement, if_neg (by omega)]
      omega
    rw [File.setStat_metadata, hmeta, decNlink, hdec]

theorem Unlinked.kept_other (hu : Unlinked s₀ s s' j) (hk : Kept s₀ s i)
    (hr : (s₀.file i).isReg = true) (hij : i ≠ j)
    (hown : LastLink s.file j → (s.file j).dentries.countP (namesIno i) = 0) : Kept s₀ s' i := by
  have hcount := hu.count i
  rw [if_neg (Ne.symm hij)] at hcount
  have hzero : (if LastLink s.file j then (s.file j).dentries.countP (namesIno i) else 0) = 0 := by
    split_ifs with hl
    · exact hown hl
    · rfl
  apply hk.of_same_at (hu.other i hr hij)
  · omega
  · rw [hu.present i hr]
    simp [hij]

theorem Unlinked.survives_iff (hu : Unlinked s₀ s s' j) (hm : Modes s₀.file s.file)
    (hg : Survives s₀ s) : Survives s₀ s' ↔
      (LastLink s.file j → ∀ d ∈ (s.file j).dentries, (s.file d.dIno).isReg = false) := by
  have hjr := hm.isReg hu.reg
  constructor
  · intro hg' hl d hd
    by_contra hreg
    rw [Bool.not_eq_false] at hreg
    have hir := hm.isReg hreg
    have hi := mem_of_isReg hreg
    have hown : 0 < (s.file j).dentries.countP (namesIno d.dIno) :=
      List.countP_pos_iff.mpr ⟨d,hd,beq_self_eq_true _⟩
    have hcount := hu.count d.dIno
    rw [if_pos hl] at hcount
    have hij : d.dIno ≠ j := by
      intro he
      have hone := (hu.last_iff (hg j hjr)).mp hl
      rw [he, if_pos rfl, hone] at hcount
      rw [he] at hown
      omega
    rw [if_neg (Ne.symm hij)] at hcount
    have hi' : d.dIno ∈ s'.entry := (hu.present _ hir).mpr ⟨hi,fun hc => hij hc.1⟩
    have hold := ((hg _ hir).2 hi).2.2
    have hnew := ((hg' _ hir).2 hi').2.2
    rw [hu.other _ hir hij, hold] at hnew
    have hlink := congrArg Stat.stNlink hnew
    simp only at hlink
    omega
  · intro hown i hir
    by_cases hij : i = j
    · subst hij
      exact hu.kept_self (hg i hir) hir
    · apply hu.kept_other (hg i hir) hir hij
      intro hl
      rw [List.countP_eq_zero]
      intro d hd hi
      rw [namesIno, beq_iff_eq] at hi
      subst hi
      -- an entry that names a file keeps it in the table
      have hnamed : d.dIno ∈ s.entry :=
        (hg _ hir).1.mpr (namings_pos.mpr ⟨j,d,hd,beq_self_eq_true _⟩)
      have hmode := congrArg Stat.stMode ((hg _ hir).2 hnamed).2.2
      have hno := hown hl d hd
      rw [File.isReg, hmode] at hno
      rw [File.isReg] at hir
      exact Bool.false_ne_true (hno.symm.trans hir)

theorem unlink_survives (hm : Modes s₀.file s.file)
    (h0 : typeBits (s₀.file 0).metadata.stMode = 0) (hg : Survives s₀ s)
    (ha : (NameOp.unlink path).Admissible s.file) :
    Survives s₀ ((NameOp.unlink path).run s) ↔ (NameOp.unlink path).Spares s.file := by
  rcases h : myUnlink path s with ⟨r,s'⟩
  rw [NameOp.run, h]
  rcases (myUnlink_did h).1.unlink with ⟨hstop,hv,hkeys⟩ | ⟨hgo,-,-⟩
  · apply iff_of_true _ (fun hgo => absurd hgo hstop)
    intro i hr
    obtain ⟨hi0,hi2⟩ := regular_number hm h0 ha.1 hr
    apply (hg i hr).of_same hv
    rw [← mem_touched (hg i hr) hi0 hi2 (unlink_touches ha.1)]
    exact (hkeys i hi0).symm
  · rw [(unlinked_facts hm h0 hg ha hgo h).survives_iff hm hg]
    exact ⟨fun hown _ => hown,fun hown => hown hgo⟩

theorem modes_run (hm : Modes s₀.file s.file) (op : NameOp) : Modes s₀.file (op.run s).file := by
  cases op with
  | link path newpath =>
    rcases h : myLink path newpath s with ⟨r,s'⟩
    rw [NameOp.run, h]
    rcases (myLink_did h).1.link.2 with ⟨-,hv⟩ | ⟨-,hv⟩
    · rw [hv]
      exact hm
    · rw [hv]
      exact (hm.put _ rfl).put _ rfl
  | unlink path =>
    rcases h : myUnlink path s with ⟨r,s'⟩
    rw [NameOp.run, h]
    rcases (myUnlink_did h).1.unlink with ⟨-,hv,-⟩ | ⟨-,hv,-⟩
    · rw [hv]
      exact hm
    · rw [hv, unlinkView, dropLink]
      split_ifs
      · exact (hm.put _ rfl).erase _
      · exact (hm.put _ rfl).put _ rfl

theorem survives_start (hc : CountsNames s₀) :
    Survives s₀ s₀ ↔ ∀ i, (s₀.file i).isReg = true → (s₀.file i).metadata.stNlink ≠ 0 := by
  constructor
  · intro h i hr
    have hpos := (h i hr).1.mp (mem_of_isReg hr)
    rw [hc i hr]
    omega
  · intro h i hr
    have hne := h i hr
    rw [hc i hr] at hne
    refine ⟨iff_of_true (mem_of_isReg hr) (by omega),fun _ => ⟨rfl,rfl,?_⟩⟩
    rw [← hc i hr]

theorem regular_of_keys {p : ℕ → Prop} (h : ∀ k ∈ s.entry.keys, (s.file k).isReg = true → p k) :
    ∀ i, (s.file i).isReg = true → p i :=
  fun i hr => h i (Finmap.mem_keys.mpr (mem_of_isReg hr)) hr

end Bbfs.Survival
