import Bbfs.Quiet

/-!
# Opens

An open counts as a link. With the links that stand for opens taken off, every
call on names does to the table what it would do without any opens, except
that a file that is open outlives its last name. So what holds of link counts
and entries in runs without opens holds in runs with opens and closes.
-/

set_option autoImplicit false

namespace Bbfs.Opens
open Bbfs.Strings Bbfs.Files Bbfs.Resolve Bbfs.Calls Bbfs.Session Bbfs.Walks Bbfs.Effects
open Bbfs.Numbers Bbfs.Directories Bbfs.DotEntries Bbfs.Tally Bbfs.Tree Bbfs.Names
open Bbfs.Placement Bbfs.Dangling Bbfs.Quiet

variable {B : Finset ℕ} {o : ℕ → ℕ} {v w : View} {n n' k P fh : ℕ} {f : File} {name : Str}

def lessLinks (m : ℕ) (st : Stat) : Stat := { st with stNlink := st.stNlink-m }

/-- The table without the links that stand for opens. -/
def lower (o : ℕ → ℕ) (v : View) : View := fun k => (v k).setStat (lessLinks (o k))

def Opened (o : ℕ → ℕ) (v : View) : Prop :=
  ∀ k, 0 < o k → k ≠ 2 ∧ Made v k ∧ (v k).isDir = false ∧ o k ≤ (v k).metadata.stNlink

theorem Opened.of_dir (h : Opened o v) (hd : (v k).isDir = true) : o k = 0 := by
  by_contra hk
  rw [(h k (Nat.pos_of_ne_zero hk)).2.2.1] at hd
  exact Bool.false_ne_true hd

theorem Opened.fresh (h : Opened o v) (hs : Numbers v n) : o n = 0 := by
  by_contra hn
  obtain ⟨-,⟨hz,hi⟩,-⟩ := h n (Nat.pos_of_ne_zero hn)
  rcases hs.numbered n with h0 | ⟨-,hlt⟩
  · exact hz (hi.symm.trans h0)
  · exact lt_irrefl n hlt

theorem lower_isDir (o : ℕ → ℕ) (v : View) (k : ℕ) : (lower o v k).isDir = (v k).isDir := rfl

theorem lower_isReg (o : ℕ → ℕ) (v : View) (k : ℕ) : (lower o v k).isReg = (v k).isReg := rfl

theorem lower_isLnk (o : ℕ → ℕ) (v : View) (k : ℕ) : (lower o v k).isLnk = (v k).isLnk := rfl

theorem lower_data (o : ℕ → ℕ) (v : View) (k : ℕ) : (lower o v k).data = (v k).data := rfl

theorem lower_dentries (o : ℕ → ℕ) (v : View) (k : ℕ) :
    (lower o v k).dentries = (v k).dentries := rfl

theorem lower_nlink (o : ℕ → ℕ) (v : View) (k : ℕ) :
    (lower o v k).metadata.stNlink = (v k).metadata.stNlink-o k := rfl

theorem lower_nameIn (o : ℕ → ℕ) (v : View) (name : Str) (k : ℕ) :
    nameIn (lower o v) name k = nameIn v name k := rfl

theorem lower_resolve (o : ℕ → ℕ) (v : View) (path : Str) :
    resolve (lower o v) path = resolve v path :=
  resolve_congr (fun k => ⟨lower_isDir o v k,lower_dentries o v k⟩)
    (fun k => ⟨lower_isLnk o v k,fun _ => lower_data o v k⟩) path

theorem lower_proceeds (o : ℕ → ℕ) (v : View) (c : Call) :
    Proceeds (lower o v) c ↔ Proceeds v c := by
  cases c <;> simp only [Proceeds, lower_resolve, lower_isDir, lower_isReg, lower_dentries]

theorem lower_takes (o : ℕ → ℕ) (v : View) (c : Call) : Takes (lower o v) c ↔ Takes v c := by
  cases c <;> simp only [Takes, lower_resolve]

theorem lower_numbers (h : Numbers v n) : Numbers (lower o v) n :=
  ⟨h.bounded,h.spare,h.numbered,h.sentinel,h.slashFree⟩

theorem lower_fresh (h : Fresh v n) : Fresh (lower o v) n :=
  ⟨h.ne_zero,h.ne_root,h.ne_err,h.unnamed⟩

theorem lessLinks_zero (f : File) : f.setStat (lessLinks 0) = f := rfl

theorem lower_update (h : o k = 0) (v : View) (f : File) :
    lower o (Function.update v k f) = Function.update (lower o v) k f := by
  funext i
  rcases eq_or_ne i k with rfl | hi
  · rw [lower, Function.update_self, Function.update_self, h, lessLinks_zero]
  · rw [lower, Function.update_of_ne hi, Function.update_of_ne hi, lower]

theorem lower_put {g : File → File}
    (hg : ∀ f m, (g f).setStat (lessLinks m) = g (f.setStat (lessLinks m))) (v : View) (k : ℕ) :
    lower o (put v k g) = put (lower o v) k g := by
  funext i
  rcases eq_or_ne i k with rfl | hi
  · rw [lower, put_self, put_self, hg, lower]
  · rw [lower, put_of_ne _ _ hi, put_of_ne _ _ hi, lower]

theorem lower_inc (h : o k ≤ (v k).metadata.stNlink) :
    lower o (put v k (File.setStat incNlink)) = put (lower o v) k (File.setStat incNlink) := by
  funext i
  rcases eq_or_ne i k with rfl | hi
  · rw [lower, put_self, put_self, lower]
    simp only [File.setStat, incNlink, lessLinks]
    rw [Nat.sub_add_comm h]
  · rw [lower, put_of_ne _ _ hi, put_of_ne _ _ hi, lower]

theorem lower_push (v : View) (k : ℕ) (d : Dirent) :
    lower o (put v k (File.push d)) = put (lower o v) k (File.push d) :=
  lower_put (fun _ _ => rfl) v k

theorem lower_dropNamed (v : View) (k : ℕ) (name : Str) :
    lower o (put v k (File.dropNamed name)) = put (lower o v) k (File.dropNamed name) :=
  lower_put (fun _ _ => rfl) v k

theorem lower_lastLink (h : o fh = 0) (v : View) : LastLink (lower o v) fh ↔ LastLink v fh := by
  rw [LastLink, lower_nlink, h, Nat.sub_zero, LastLink]

theorem lower_unlinkView (h : o fh = 0) (v : View) (P : ℕ) (name : Str) :
    lower o (unlinkView v P name fh) = unlinkView (lower o v) P name fh := by
  rw [unlinkView_eq, unlinkView_eq]
  by_cases hl : LastLink v fh
  · rw [if_pos hl, if_pos ((lower_lastLink h v).mpr hl), lower_update h, lower_dropNamed]
  · rw [if_neg hl, if_neg (fun hc => hl ((lower_lastLink h v).mp hc)), ← lower_dropNamed]
    funext i
    rcases eq_or_ne i fh with rfl | hi
    · rw [lower, put_self, put_self, lower, h, lessLinks_zero, lessLinks_zero]
    · rw [lower, put_of_ne _ _ hi, put_of_ne _ _ hi, lower]

theorem lower_rmdirView (h : o fh = 0) (v : View) (P : ℕ) :
    lower o (rmdirView v P fh) = rmdirView (lower o v) P fh := by
  rw [rmdirView, rmdirView]
  by_cases hl : LastLink v fh
  · rw [if_pos hl, if_pos ((lower_lastLink h v).mpr hl), lower_update h,
      lower_put (fun _ _ => rfl)]
  · rw [if_neg hl, if_neg (fun hc => hl ((lower_lastLink h v).mp hc)), lower_put (fun _ _ => rfl)]

theorem lower_renameView (v : View) (P Q : ℕ) (name newname : Str) (fh : ℕ) :
    lower o (renameView v P Q name newname fh) = renameView (lower o v) P Q name newname fh := by
  rw [renameView, renameView, lower_push, clearView, clearView, lower_dropNamed, lower_nameIn]
  split_ifs
  · rw [lower_dropNamed]
  · rfl

/-- What a call on names does, but for a file that is open and loses a name. -/
theorem lower_effect {K K' : Set ℕ} {c : Call} {r : ℤ} (h : Opened o v) (hs : Numbers v n)
    (hc : c.isNamespace = true)
    (hopen : ∀ path, c = .unlink path → o (resolve v path) = 0)
    (he : Effect v K n c r w K' n') :
    ∃ K'', Effect (lower o v) K n c r (lower o w) K'' n' := by
  have h0 := h.fresh hs
  have hstop := lower_proceeds o v
  have htake := lower_takes o v
  have hr := lower_resolve o v
  cases he with
  | idle stopped unspent =>
    exact ⟨_,Effect.idle (fun hc => stopped ((hstop c).mp hc)) (fun hc => unspent ((htake c).mp hc))
      (fun _ _ => Iff.rfl)⟩
  | leaked f create spent stopped new empty =>
    rw [lower_update h0]
    exact ⟨_,Effect.leaked f create ((htake c).mpr spent) (fun hc => stopped ((hstop c).mp hc)) new
      empty (fun _ _ => Iff.rfl)⟩
  | entered path f create spent go new dots =>
    have hview : lower o (enterView v n (resolve v (parentPath path)) (tail path) f) =
        enterView (lower o v) n (resolve (lower o v) (parentPath path)) (tail path) f := by
      rw [enterView, enterView, lower_push, lower_update h0, hr]
    rw [hview]
    exact ⟨_,Effect.entered path f create ((htake c).mpr spent) ((hstop c).mpr go) new
      (by rw [hr]; exact dots) (fun _ _ => Iff.rfl)⟩
  | linked path newpath go =>
    have hview : lower o (linkView v (resolve v (parentPath newpath)) (tail newpath)
        (resolve v path)) = linkView (lower o v) (resolve (lower o v) (parentPath newpath))
          (tail newpath) (resolve (lower o v) path) := by
      have hle : o (resolve v path) ≤ (v (resolve v path)).metadata.stNlink := by
        rcases Nat.eq_zero_or_pos (o (resolve v path)) with hz | hpos
        · rw [hz]
          exact Nat.zero_le _
        · exact (h _ hpos).2.2.2
      rw [linkView, linkView, lower_push, lower_inc hle, hr, hr]
    rw [hview]
    exact ⟨_,Effect.linked path newpath ((hstop _).mpr go) (fun _ _ => Iff.rfl)⟩
  | unlinked path go =>
    rw [lower_unlinkView (hopen path rfl), ← hr, ← hr path]
    exact ⟨_,Effect.unlinked path ((hstop _).mpr go) (fun _ _ => Iff.rfl)⟩
  | removed path go =>
    rw [lower_rmdirView (h.of_dir go.1), ← hr, ← hr path]
    exact ⟨_,Effect.removed path ((hstop _).mpr go) (fun _ _ => Iff.rfl)⟩
  | renamed path newpath go =>
    rw [lower_renameView, ← hr (parentPath path), ← hr (parentPath newpath), ← hr path]
    exact ⟨_,Effect.renamed path newpath ((hstop _).mpr go) (fun _ _ => Iff.rfl)⟩
  | retyped => exact absurd hc Bool.false_ne_true
  | opened => exact absurd hc Bool.false_ne_true
  | closed => exact absurd hc Bool.false_ne_true
  | written => exact absurd hc Bool.false_ne_true
  | patched k g keeps other =>
    rw [edits_of_isNamespace hc] at other
    exact absurd other.symm Bool.false_ne_true

structure SameDirs (v w : View) : Prop where
  isDir : ∀ k, (w k).isDir = (v k).isDir
  same : ∀ k, (v k).isDir = true → w k = v k

theorem sameDirs_update (hd : (v fh).isDir = false) (hf : f.isDir = false) :
    SameDirs v (Function.update v fh f) := by
  constructor
  · intro k
    rcases eq_or_ne k fh with rfl | hk
    · rw [Function.update_self, hf, hd]
    · rw [Function.update_of_ne hk]
  · intro k hk
    refine Function.update_of_ne ?_ f v
    rintro rfl
    rw [hd] at hk
    exact Bool.false_ne_true hk

namespace SameDirs

theorem dirs (h : SameDirs v w) (hv : Dirs v) : Dirs w := by
  intro k hk
  rw [h.isDir] at hk
  rw [h.same k hk]
  exact hv k hk

theorem tally (h : SameDirs v w) (p : Dirent → Bool) (k : ℕ) :
    tally p (w k) = Tally.tally p (v k) := by
  by_cases hk : (v k).isDir = true
  · rw [h.same k hk]
  · rw [Bool.not_eq_true] at hk
    rw [tally_of_not_dir hk, tally_of_not_dir ((h.isDir k).trans hk)]

theorem total (h : SameDirs v w) (p : ℕ → Dirent → Bool) : total B p w = Tally.total B p v :=
  Finset.sum_congr rfl (fun k _ => h.tally (p k) k)

theorem down (h : SameDirs v w) {x y : ℕ} : Down w x y ↔ Down v x y := by
  unfold Down
  rw [h.isDir, h.isDir]
  exact and_congr_right (fun hx => by rw [h.same x hx])

theorem placed (h : SameDirs v w) {x : ℕ} : Placed w x ↔ Placed v x := by
  have hdown : Down w = Down v := by
    funext x y
    exact propext h.down
  rw [Placed, Placed, h.isDir, hdown]

theorem refers (h : SameDirs v w) (i x : ℕ) (d : Dirent) :
    refers w i x d = Placement.refers v i x d := by
  rw [Bool.eq_iff_iff, refers_iff, refers_iff, h.placed, h.isDir]

theorem holds (h : SameDirs v w) {x y : ℕ} : Holds w x y ↔ Holds v x y := by
  unfold Holds
  rw [h.isDir]
  exact and_congr_right (fun hx => by rw [h.same x hx])

theorem oneName (h : SameDirs v w) (hv : OneName B v) : OneName B w := by
  refine ⟨h.dirs hv.dirs,?_,?_,?_⟩
  · intro y hy
    rw [h.isDir] at hy
    rw [h.total]
    exact hv.once y hy
  · intro h2
    rw [h.isDir] at h2
    rw [h.total]
    exact hv.root h2
  · intro k hk d hd
    rw [h.isDir] at hk
    rw [h.same k hk] at hd
    exact hv.named k hk d hd

theorem uniqueNames (h : SameDirs v w) (hv : UniqueNames v) : UniqueNames w := by
  intro k hk
  rw [h.isDir] at hk
  rw [h.same k hk]
  exact hv k hk

theorem dotsRight (h : SameDirs v w) (hv : DotsRight v) : DotsRight w := by
  refine ⟨h.dirs hv.dirs,?_,?_,?_⟩
  · intro x y hxy hy h2
    rw [h.isDir] at hy
    rw [h.same y hy]
    exact hv.held x y (h.holds.mp hxy) hy h2
  · intro x hx h2
    rw [h.isDir] at h2
    exact hv.heldRoot x (h.holds.mp hx) h2
  · intro h2
    rw [h.isDir] at h2
    rw [h.same 2 h2]
    exact hv.root h2

end SameDirs

def Unnamed (v : View) (fh : ℕ) : Prop := ∀ x, Placed v x → ∀ d ∈ (v x).dentries, d.dIno ≠ fh

theorem sound_update (h : Sound B v) (hd : (v fh).isDir = false) (hf : f.isDir = false)
    (hu : Unnamed v fh) : Sound B (Function.update v fh f) := by
  have hsame := sameDirs_update hd hf
  have hmade : ∀ i, i ≠ fh → (Made (Function.update v fh f) i ↔ Made v i) := by
    intro i hi
    rw [Made, Made, Function.update_of_ne hi]
  refine ⟨hsame.dirs h.dirs,?_,?_,?_,?_,?_⟩
  · intro k hk
    rw [hsame.isDir] at hk
    exact h.low k hk
  · intro x hx d hm
    rw [hsame.placed] at hx
    rw [hsame.same x hx.isDir] at hm
    exact (hmade _ (hu x hx d hm)).mpr (h.made x hx d hm)
  · intro i h2 hi
    rw [show refers (Function.update v fh f) i = refers v i from
      funext fun x => funext fun d => hsame.refers i x d, hsame.total]
    rcases eq_or_ne i fh with rfl | hne
    · have hzero : total B (refers v i) v = 0 := by
        refine total_eq_zero (fun x d hm => ?_)
        rw [Bool.eq_false_iff]
        exact fun hr => hu x (refers_iff.mp hr).1 d hm (refers_iff.mp hr).2.1
      rw [hzero]
      exact Nat.zero_le _
    · rw [Function.update_of_ne hne]
      exact h.links i h2 ((hmade i hne).mp hi)
  · intro x hx d hm hdir
    rw [hsame.isDir] at hx hdir
    rw [hsame.same x hx] at hm
    exact h.back x hx d hm hdir
  · intro x hx d hm hdir h2 hle
    rw [hsame.isDir] at hx hdir
    rw [hsame.same x hx] at hm
    exact (h.up x hx d hm hdir h2 hle).imp_right (fun hall z hz => hall z (hsame.down.mp hz))

/-- What holds of entries and link counts without opens. -/
structure Standing (B : Finset ℕ) (v : View) : Prop extends Kept B v where
  dots : DotsRight v

theorem standing_shape (h : SameShape v w) (hv : Standing B v) : Standing B w :=
  ⟨h.kept hv.toKept,h.dotsRight hv.dots⟩

theorem standing_update (h : Standing B v) (hd : (v fh).isDir = false) (hf : f.isDir = false)
    (hr : f.isReg = true → fh ≠ errIno ∧ fh ≠ 2) (hu : Unnamed v fh) :
    Standing B (Function.update v fh f) := by
  have hsame := sameDirs_update hd hf
  refine ⟨⟨hsame.oneName h.one,sound_update h.sound hd hf hu,?_,?_,hsame.uniqueNames h.distinct⟩,
    hsame.dotsRight h.dots⟩
  · rcases eq_or_ne errIno fh with he | hne
    · rw [he, Function.update_self, Bool.eq_false_iff]
      exact fun hreg => (hr hreg).1 he.symm
    · rw [Function.update_of_ne hne]
      exact h.err
  · rcases eq_or_ne 2 fh with he | hne
    · rw [he, Function.update_self, Bool.eq_false_iff]
      exact fun hreg => (hr hreg).2 he.symm
    · rw [Function.update_of_ne hne]
      exact h.root

theorem unnamed_of_nlink (h : Sound B v) (hB : ∀ k, (v k).isDir = true → k ∈ B) (h2 : fh ≠ 2)
    (hm : Made v fh) (hd : (v fh).isDir = false) (hn : (v fh).metadata.stNlink = 0) :
    Unnamed v fh := by
  intro x hx d hd' he
  have hzero := Nat.le_zero.mp (hn ▸ h.links fh h2 hm)
  have hno := total_zero_entry hzero (hB x hx.isDir) hx.isDir hd'
  have hyes : refers v fh x d = true :=
    refers_iff.mpr ⟨hx,he,fun hdir => absurd (hd ▸ hdir) Bool.false_ne_true⟩
  rw [hyes] at hno
  exact Bool.false_ne_true hno.symm

structure Held (B : Finset ℕ) (o : ℕ → ℕ) (v : View) : Prop where
  standing : Standing B (lower o v)
  opened : Opened o v

theorem sameShape_lower (h : Opened o v) : SameShape (lower o v) v := by
  refine ⟨fun _ => rfl,fun _ => rfl,fun _ => rfl,fun k => Nat.sub_le _ _,fun k hk => ?_⟩
  rw [lower_nlink, h.of_dir hk, Nat.sub_zero]

theorem Held.plain (h : Held B o v) : Standing B v :=
  standing_shape (sameShape_lower h.opened) h.standing

theorem Opened.mono (h : Opened o v) (hd : ∀ k, 0 < o k → (w k).isDir = (v k).isDir)
    (hi : ∀ k, 0 < o k → (w k).metadata.stIno = (v k).metadata.stIno)
    (hn : ∀ k, 0 < o k → o k ≤ (w k).metadata.stNlink) : Opened o w := by
  intro k hk
  obtain ⟨h2,hm,hdir,-⟩ := h k hk
  exact ⟨h2,⟨hm.1,(hi k hk).trans hm.2⟩,(hd k hk).trans hdir,hn k hk⟩

theorem Opened.of_metadata (h : Opened o v)
    (hm : ∀ k, 0 < o k → (w k).metadata = (v k).metadata) : Opened o w := by
  refine h.mono (fun k hk => ?_) (fun k hk => by rw [hm k hk])
    (fun k hk => (h k hk).2.2.2.trans (by rw [hm k hk]))
  rw [File.isDir, hm k hk, File.isDir]

theorem sameShape_lowered (hs : SameShape v w) : SameShape (lower o v) (lower o w) := by
  refine ⟨hs.dentries,hs.type,hs.stIno,fun k => ?_,fun k hk => ?_⟩
  · rw [lower_nlink, lower_nlink]
    exact Nat.sub_le_sub_right (hs.stNlink k) (o k)
  · rw [lower_nlink, lower_nlink, hs.dirNlink k hk]

theorem held_quiet (h : Held B o v) (hs : SameShape v w) : Held B o w :=
  ⟨standing_shape (sameShape_lowered hs) h.standing,
    h.opened.mono (fun k _ => hs.isDir k) (fun k _ => hs.stIno k)
      (fun k hk => (h.opened k hk).2.2.2.trans (hs.stNlink k))⟩

theorem lower_at {o' : ℕ → ℕ} (ho : ∀ k, k ≠ fh → o' k = o k) (hw : ∀ k, k ≠ fh → w k = v k) :
    lower o' w = Function.update (lower o v) fh ((w fh).setStat (lessLinks (o' fh))) := by
  funext k
  rcases eq_or_ne k fh with rfl | hk
  · rw [Function.update_self, lower]
  · rw [Function.update_of_ne hk, lower, ho k hk, hw k hk, lower]

theorem opened_at {o' : ℕ → ℕ} (h : Opened o v) (ho : ∀ k, k ≠ fh → o' k = o k)
    (hw : ∀ k, k ≠ fh → w k = v k)
    (hat : 0 < o' fh → fh ≠ 2 ∧ Made w fh ∧ (w fh).isDir = false ∧
      o' fh ≤ (w fh).metadata.stNlink) : Opened o' w := by
  intro k hk
  rcases eq_or_ne k fh with rfl | hne
  · exact hat hk
  · rw [ho k hne] at hk ⊢
    rw [Made, hw k hne]
    exact h k hk

theorem held_open (h : Held B o v) (h2 : fh ≠ 2) (hm : Made v fh) (hd : (v fh).isDir = false) :
    Held B (Function.update o fh (o fh+1)) (put v fh (File.setStat incNlink)) := by
  have ho : ∀ k, k ≠ fh → Function.update o fh (o fh+1) k = o k :=
    fun k hk => Function.update_of_ne hk _ o
  have hw : ∀ k, k ≠ fh → put v fh (File.setStat incNlink) k = v k :=
    fun k hk => put_of_ne v _ hk
  have hcount : o fh ≤ (v fh).metadata.stNlink := by
    rcases Nat.eq_zero_or_pos (o fh) with hz | hpos
    · rw [hz]
      exact Nat.zero_le _
    · exact (h.opened fh hpos).2.2.2
  constructor
  · rw [lower_at ho hw, put_self, Function.update_self]
    have hfile : ((v fh).setStat incNlink).setStat (lessLinks (o fh+1)) = lower o v fh := by
      simp only [lower, File.setStat, incNlink, lessLinks, Nat.add_sub_add_right]
    rw [hfile, Function.update_eq_self]
    exact h.standing
  · refine opened_at h.opened ho hw (fun _ => ?_)
    rw [Made, put_self, Function.update_self]
    exact ⟨h2,hm,hd,Nat.succ_le_succ hcount⟩

theorem held_close (h : Held B o v) (hB : ∀ k, (v k).isDir = true → k ∈ B) (hpos : 0 < o fh) :
    Held B (Function.update o fh (o fh-1)) (dropLink v fh) ∧
      (LastLink v fh → Unnamed (lower o v) fh) := by
  obtain ⟨h2,hm,hd,hcount⟩ := h.opened fh hpos
  have ho : ∀ k, k ≠ fh → Function.update o fh (o fh-1) k = o k :=
    fun k hk => Function.update_of_ne hk _ o
  have hw : ∀ k, k ≠ fh → dropLink v fh k = v k := fun k hk => dropLink_of_ne v hk
  by_cases hl : LastLink v fh
  · have hone := lastLink_iff.mp hl
    have hunnamed : Unnamed (lower o v) fh := by
      refine unnamed_of_nlink h.standing.sound hB h2 hm hd ?_
      rw [lower_nlink, hone]
      omega
    have hgone : dropLink v fh fh = default := by
      rw [dropLink, if_pos hl, Function.update_self]
    refine ⟨⟨?_,opened_at h.opened ho hw (fun hk => ?_)⟩,fun _ => hunnamed⟩
    · rw [lower_at ho hw]
      have hreg : ((dropLink v fh fh).setStat (lessLinks (Function.update o fh (o fh-1) fh))).isReg =
          false := by
        rw [hgone]
        exact File.default_isReg
      refine standing_update h.standing hd ?_ (fun hr => ?_) hunnamed
      · rw [hgone]
        exact File.default_isDir
      · rw [hreg] at hr
        exact absurd hr Bool.false_ne_true
    · rw [Function.update_self] at hk
      omega
  · have hkeep : dropLink v fh fh = (v fh).setStat decNlink := by
      rw [dropLink, if_neg hl, put_self]
    have htwo : 2 ≤ (v fh).metadata.stNlink := by
      rw [lastLink_iff] at hl
      omega
    have hdec : decrement (v fh).metadata.stNlink = (v fh).metadata.stNlink-1 :=
      if_neg (by omega)
    refine ⟨⟨?_,opened_at h.opened ho hw (fun _ => ?_)⟩,fun hc => absurd hc hl⟩
    · rw [lower_at ho hw, hkeep, Function.update_self]
      have hfile : ((v fh).setStat decNlink).setStat (lessLinks (o fh-1)) = lower o v fh := by
        simp only [lower, File.setStat, decNlink, lessLinks, hdec]
        rw [Nat.sub_sub, Nat.add_sub_cancel' (Nat.succ_le_of_lt hpos)]
      rw [hfile, Function.update_eq_self]
      exact h.standing
    · rw [Made, hkeep, Function.update_self]
      refine ⟨h2,hm,hd,?_⟩
      rw [File.setStat_metadata, decNlink, hdec]
      exact Nat.sub_le_sub_right hcount 1

theorem dec_lessLinks {m : ℕ} (h : m+1 ≤ f.metadata.stNlink) :
    (f.setStat decNlink).setStat (lessLinks m) = (f.setStat (lessLinks m)).setStat decNlink := by
  have h1 : decrement f.metadata.stNlink = f.metadata.stNlink-1 := if_neg (by omega)
  have h2 : decrement (f.metadata.stNlink-m) = f.metadata.stNlink-m-1 := if_neg (by omega)
  simp only [File.setStat, decNlink, lessLinks, h1, h2]
  rw [Nat.sub_right_comm]

theorem standing_effect {K K' : Set ℕ} {c : Call} {r : ℤ} (h : Standing B v) (hs : Numbers v n)
    (hf : Fresh v n) (hl : 3 ≤ n) (hn : n ≤ n') (hb : n' ≤ 2^31) (hB : ∀ k, k < 2^31 → k ∈ B)
    (hc : c.isNamespace = true) (hk : KeepsEntries v c) (hdots : KeepsDots v c)
    (he : Effect v K n c r w K' n') : Standing B w :=
  ⟨kept_effect h.toKept hs hf hl hn hb hB hc hk he,
    dotsRight_effect h.dots hs hf (hn.trans hb) hc hdots he⟩

theorem unlink_counted {path : Str} (h : Standing B (lower o v)) (hB : ∀ k, k < 2^31 → k ∈ B)
    (ho : Opened o v) (hs : Numbers v n) (hb : n ≤ 2^31)
    (hk : KeepsTargets (lower o v) (.unlink path)) (hgo : Proceeds (lower o v) (.unlink path))
    (hpos : 0 < o (resolve v path)) :
    o (resolve v path)+1 ≤ (v (resolve v path)).metadata.stNlink := by
  obtain ⟨h2,hm,hd,hcount⟩ := ho _ hpos
  have hkept := hk hgo
  simp only [lower_resolve, lower_isDir] at hkept
  obtain ⟨hPd,hfirst⟩ := (hkept.resolve_left h2).resolve_left (fun herr => by
    rcases hs.numbered (resolve v path) with hz | ⟨-,hlt⟩
    · exact hm.1 (hm.2.symm.trans hz)
    · rw [herr, errIno] at hlt
      omega)
  obtain ⟨d,hd',hi⟩ := Option.map_eq_some_iff.mp hfirst
  have hplaced : Placed (lower o v) (resolve v (parentPath path)) := by
    rw [← lower_resolve o v]
    exact h.sound.placed_resolve (lower_numbers hs) hb (by rw [lower_resolve]; exact hPd)
  have hBdir : ∀ k, (lower o v k).isDir = true → k ∈ B := by
    intro k hk
    have hlt := (h.one.dirs.lt (lower_numbers hs) hk).2
    exact hB k (by omega)
  by_contra hle
  have hzero : (lower o v (resolve v path)).metadata.stNlink = 0 := by
    rw [lower_nlink]
    omega
  exact unnamed_of_nlink h.sound hBdir h2 hm hd hzero _ hplaced d (firstNamed_mem hd').1 hi

theorem standing_unlink (h : Standing B (unlinkView (lower o v) P name fh)) (ho : Opened o v)
    (herr : fh ≠ errIno) (hpos : 0 < o fh) (hcount : o fh+1 ≤ (v fh).metadata.stNlink) :
    Standing B (lower o (unlinkView v P name fh)) := by
  obtain ⟨h2,hm,hd,-⟩ := ho fh hpos
  have hl : ¬ LastLink v fh := by
    rw [lastLink_iff]
    omega
  have hfile : (put (put v P (File.dropNamed name)) fh (File.setStat decNlink) fh).isDir = false := by
    rw [put_self]
    exact ((Edit.dropNamed name).isDir v P fh).trans hd
  rw [unlinkView_eq, if_neg hl]
  have hother : ∀ k, k ≠ fh → put (put v P (File.dropNamed name)) fh (File.setStat decNlink) k =
      put v P (File.dropNamed name) k := fun k hk => put_of_ne _ _ hk
  rw [lower_at (fun _ _ => rfl) hother, lower_dropNamed]
  rw [unlinkView_eq] at h
  by_cases hlow : LastLink (lower o v) fh
  · -- without its opens the file would be erased
    rw [if_pos hlow] at h
    have hunnamed : Unnamed (Function.update (put (lower o v) P (File.dropNamed name)) fh default)
        fh := by
      intro x hx d hmem he
      obtain ⟨h0,hi⟩ := h.sound.made x hx d hmem
      rw [he, Function.update_self] at hi
      exact h0 (he.trans hi.symm)
    have hstand := standing_update h (f := ((put (put v P (File.dropNamed name)) fh
      (File.setStat decNlink)) fh).setStat (lessLinks (o fh))) (by
        rw [Function.update_self]; exact File.default_isDir) hfile (fun _ => ⟨herr,h2⟩) hunnamed
    rwa [Function.update_idem] at hstand
  · rw [if_neg hlow] at h
    have hmeta : (put v P (File.dropNamed name) fh).metadata = (v fh).metadata :=
      (Edit.dropNamed name).put_metadata v P fh
    rw [put_self, dec_lessLinks (by rw [hmeta]; exact hcount)]
    rw [← lower_dropNamed] at h ⊢
    exact h

theorem Opened.unlinked (h : Opened o v) (hcount : 0 < o fh → o fh+1 ≤ (v fh).metadata.stNlink) :
    Opened o (unlinkView v P name fh) := by
  have hdrop : Opened o (put v P (File.dropNamed name)) :=
    h.of_metadata (fun k _ => (Edit.dropNamed name).put_metadata v P k)
  rw [unlinkView]
  refine opened_at hdrop (fun _ _ => rfl) (fun k hk => dropLink_of_ne _ hk) (fun hpos => ?_)
  have hone := hcount hpos
  have hmeta : (put v P (File.dropNamed name) fh).metadata = (v fh).metadata :=
    (Edit.dropNamed name).put_metadata v P fh
  have hl : ¬ LastLink (put v P (File.dropNamed name)) fh := by
    rw [lastLink_iff, hmeta]
    omega
  obtain ⟨h2,hm,hd,-⟩ := hdrop fh hpos
  rw [Made, dropLink, if_neg hl, put_self]
  have hdec : decrement (v fh).metadata.stNlink = (v fh).metadata.stNlink-1 := if_neg (by omega)
  refine ⟨h2,hm,hd,?_⟩
  rw [File.setStat_metadata, decNlink, hmeta, hdec]
  exact Nat.le_sub_of_add_le hone

theorem Opened.effect {K K' : Set ℕ} {c : Call} {r : ℤ} (h : Opened o v) (hs : Numbers v n)
    (hc : c.isNamespace = true)
    (hunlink : ∀ path, c = .unlink path → Proceeds v c → 0 < o (resolve v path) →
      o (resolve v path)+1 ≤ (v (resolve v path)).metadata.stNlink)
    (he : Effect v K n c r w K' n') : Opened o w := by
  have hnew : ∀ k, 0 < o k → k ≠ n := by
    rintro k hk rfl
    rw [h.fresh hs] at hk
    exact lt_irrefl 0 hk
  cases he with
  | idle => exact h
  | leaked f create spent stopped new empty =>
    exact h.of_metadata (fun k hk => by rw [Function.update_of_ne (hnew k hk)])
  | entered path f create spent go new dots =>
    refine h.of_metadata (fun k hk => ?_)
    rw [enterView, (Edit.push _).put_metadata, Function.update_of_ne (hnew k hk)]
  | linked path newpath go =>
    rw [linkView]
    refine Opened.of_metadata (v := put v (resolve v path) (File.setStat incNlink)) ?_
      (fun k _ => (Edit.push _).put_metadata _ _ k)
    refine opened_at h (fun _ _ => rfl) (fun k hk => put_of_ne v _ hk) (fun hpos => ?_)
    obtain ⟨h2,hm,hd,hcount⟩ := h _ hpos
    rw [Made, put_self]
    exact ⟨h2,hm,hd,hcount.trans (Nat.le_succ _)⟩
  | unlinked path go => exact h.unlinked (hunlink path rfl go)
  | removed path go =>
    rw [rmdirView]
    have hdrop : Opened o (put v (resolve v (parentPath path)) (File.dropIno (resolve v path))) :=
      h.of_metadata (fun k _ => (Edit.dropIno _).put_metadata v _ k)
    split_ifs
    · refine opened_at hdrop (fun _ _ => rfl) (fun k hk => Function.update_of_ne hk _ _)
        (fun hpos => ?_)
      rw [h.of_dir go.1] at hpos
      exact absurd hpos (lt_irrefl 0)
    · exact hdrop
  | renamed path newpath go =>
    exact h.of_metadata (fun k _ => renameView_metadata _ _ _ _ _ k)
  | retyped => exact absurd hc Bool.false_ne_true
  | opened => exact absurd hc Bool.false_ne_true
  | closed => exact absurd hc Bool.false_ne_true
  | written => exact absurd hc Bool.false_ne_true
  | patched k g keeps other =>
    rw [edits_of_isNamespace hc] at other
    exact absurd other.symm Bool.false_ne_true

theorem held_effect {K K' : Set ℕ} {c : Call} {r : ℤ} (h : Held B o v) (hs : Numbers v n)
    (hf : Fresh v n) (hl : 3 ≤ n) (hn : n ≤ n') (hb : n' ≤ 2^31) (hB : ∀ k, k < 2^31 → k ∈ B)
    (hc : c.isNamespace = true) (hk : KeepsEntries (lower o v) c) (hdots : KeepsDots (lower o v) c)
    (he : Effect v K n c r w K' n') : Held B o w := by
  have hcounted : ∀ path, c = .unlink path → Proceeds v c → 0 < o (resolve v path) →
      o (resolve v path)+1 ≤ (v (resolve v path)).metadata.stNlink := by
    rintro path rfl hgo hpos
    exact unlink_counted h.standing hB h.opened hs (hn.trans hb) hk.2.2.1
      ((lower_proceeds o v _).mpr hgo) hpos
  refine ⟨?_,h.opened.effect hs hc hcounted he⟩
  have hs' := lower_numbers (o := o) hs
  have hf' := lower_fresh (o := o) hf
  by_cases hopen : ∀ path, c = .unlink path → o (resolve v path) = 0
  · obtain ⟨K'',heffect⟩ := lower_effect h.opened hs hc hopen he
    exact standing_effect h.standing hs' hf' hl hn hb hB hc hk hdots heffect
  · push Not at hopen
    obtain ⟨path,rfl,hne⟩ := hopen
    have hpos := Nat.pos_of_ne_zero hne
    rcases he.unlink with ⟨-,hw,-⟩ | ⟨hgo,hw,-⟩
    · rw [hw]
      exact h.standing
    · obtain ⟨-,hm,-⟩ := h.opened _ hpos
      have herr : resolve v path ≠ errIno := by
        intro herr
        rcases hs.numbered (resolve v path) with hz | ⟨-,hlt⟩
        · exact hm.1 (hm.2.symm.trans hz)
        · rw [herr, errIno] at hlt
          omega
      have hlow := standing_effect h.standing hs' hf' hl le_rfl (hn.trans hb) hB hc hk hdots
        (Effect.unlinked (K := ∅) path ((lower_proceeds o v _).mpr hgo) (fun _ _ => Iff.rfl))
      rw [lower_resolve, lower_resolve] at hlow
      rw [hw]
      exact standing_unlink hlow h.opened herr hpos (hcounted path rfl hgo hpos)

end Bbfs.Opens
