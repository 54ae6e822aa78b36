import Bbfs.Dangling
import Bbfs.DotEntries
import Bbfs.Names
import Bbfs.Tree

/-!
# Calls that leave the names alone

The calls that neither edit an entry nor hold a file open change contents,
permission bits, owners, times and attributes. What the invariants of the name
space speak of is not among these, so they hold in runs that mix both kinds of
calls.
-/

set_option autoImplicit false

namespace Bbfs.Quiet
open Bbfs.Strings Bbfs.Files Bbfs.Resolve Bbfs.Calls Bbfs.Session Bbfs.Walks Bbfs.Effects
open Bbfs.Numbers Bbfs.Directories Bbfs.DotEntries Bbfs.Tally Bbfs.Tree Bbfs.Names
open Bbfs.Placement Bbfs.Dangling

variable {B : Finset ℕ} {v w : View} {n k x y : ℕ}

structure SameShape (v w : View) : Prop where
  dentries : ∀ k, (w k).dentries = (v k).dentries
  type : ∀ k, typeBits (w k).metadata.stMode = typeBits (v k).metadata.stMode
  stIno : ∀ k, (w k).metadata.stIno = (v k).metadata.stIno
  stNlink : ∀ k, (v k).metadata.stNlink ≤ (w k).metadata.stNlink
  dirNlink : ∀ k, (v k).isDir = true → (w k).metadata.stNlink = (v k).metadata.stNlink

namespace SameShape

theorem refl (v : View) : SameShape v v :=
  ⟨fun _ => rfl,fun _ => rfl,fun _ => rfl,fun _ => le_rfl,fun _ _ => rfl⟩

theorem isDir (h : SameShape v w) (k : ℕ) : (w k).isDir = (v k).isDir := by
  rw [File.isDir, S_ISDIR_eq, h.type, File.isDir, S_ISDIR_eq]

theorem isReg (h : SameShape v w) (k : ℕ) : (w k).isReg = (v k).isReg := by
  rw [File.isReg, S_ISREG_eq, h.type, File.isReg, S_ISREG_eq]

theorem nameIn (h : SameShape v w) (name : Str) (k : ℕ) :
    nameIn w name k = Resolve.nameIn v name k := by
  rw [Resolve.nameIn, Resolve.nameIn, h.isDir, h.dentries]

theorem holds (h : SameShape v w) : Holds w x y ↔ Holds v x y := by
  rw [Holds, Holds, h.isDir, h.dentries]

theorem tally (h : SameShape v w) (p : Dirent → Bool) (k : ℕ) :
    tally p (w k) = Tally.tally p (v k) := by
  rw [Tally.tally, Tally.tally, held, held, h.isDir, h.dentries]

theorem total (h : SameShape v w) (p : ℕ → Dirent → Bool) :
    total B p w = Tally.total B p v :=
  Finset.sum_congr rfl (fun k _ => h.tally (p k) k)

theorem dirs (h : SameShape v w) (hv : Dirs v) : Dirs w := by
  intro k hk
  rw [h.isDir] at hk
  rw [h.dirNlink k hk, h.stIno]
  exact hv k hk

theorem oneName (h : SameShape v w) (hv : OneName B v) : OneName B w := by
  refine ⟨h.dirs hv.dirs,?_,?_,?_⟩
  · intro y hy
    rw [h.isDir] at hy
    rw [h.total]
    exact hv.once y hy
  · intro h2
    rw [h.isDir] at h2
    rw [h.total]
    exact hv.root h2
  · intro k hk d hd
    rw [h.isDir] at hk
    rw [h.dentries] at hd
    exact hv.named k hk d hd

theorem sound (h : SameShape v w) (hv : Sound B v) : Sound B w := by
  refine hv.narrow h.isDir h.stIno (h.dirs hv.dirs) ?_ ?_ ?_
  · intro x _ d hd
    rw [h.dentries] at hd
    exact Or.inl ⟨d,hd,rfl⟩
  · intro x hx d hd
    rw [h.dentries] at hd
    exact hv.back x hx d hd
  · intro i h2 hi
    rw [h.total]
    exact (hv.links i h2 hi).trans (h.stNlink i)

theorem uniqueNames (h : SameShape v w) (hv : UniqueNames v) : UniqueNames w := by
  intro k hk
  rw [h.isDir] at hk
  rw [Names.names, h.dentries]
  exact hv k hk

theorem dotsRight (h : SameShape v w) (hv : DotsRight v) : DotsRight w := by
  refine ⟨h.dirs hv.dirs,?_,?_,?_⟩
  · intro x y hxy hy h2
    rw [h.isDir] at hy
    rw [under, under, h.dentries]
    exact hv.held x y (h.holds.mp hxy) hy h2
  · intro x hx h2
    rw [h.isDir] at h2
    exact hv.heldRoot x (h.holds.mp hx) h2
  · intro h2
    rw [h.isDir] at h2
    rw [firstNamed, firstNamed, h.dentries]
    exact hv.root h2

end SameShape

def quiet : Call → Bool
  | .openFile .. | .close .. => false
  | c => !c.edits

def KeepsType (v : View) : Call → Prop
  | .chmod path mode => resolve v path ≠ 0 →
    typeBits (chmodStat mode (v (resolve v path))).metadata.stMode =
      typeBits (v (resolve v path)).metadata.stMode
  | _ => True

instance (v : View) (c : Call) : Decidable (KeepsType v c) := by
  induction c using Call.casesOn <;> unfold KeepsType <;> infer_instance

theorem created_of_quiet {c : Call} (h : quiet c = true) : c.created = none := by
  cases c <;> first | rfl | exact absurd h Bool.false_ne_true

theorem sameShape_put {g : File → File} (hd : (g (v k)).dentries = (v k).dentries)
    (ht : typeBits (g (v k)).metadata.stMode = typeBits (v k).metadata.stMode)
    (hi : (g (v k)).metadata.stIno = (v k).metadata.stIno)
    (hn : (g (v k)).metadata.stNlink = (v k).metadata.stNlink) : SameShape v (put v k g) := by
  have hlinks : ∀ i, (put v k g i).metadata.stNlink = (v i).metadata.stNlink := by
    intro i
    rcases eq_or_ne i k with rfl | he
    · rw [put_self, hn]
    · rw [put_of_ne v g he]
  refine ⟨?_,?_,?_,fun i => (hlinks i).ge,fun i _ => hlinks i⟩
  all_goals
    intro i
    rcases eq_or_ne i k with rfl | he
    · rw [put_self]
      assumption
    · rw [put_of_ne v g he]

theorem quiet_effect {K K' : Set ℕ} {c : Call} {r : ℤ} {n' : ℕ} (hq : quiet c = true)
    (hk : KeepsType v c) (he : Effect v K n c r w K' n') : SameShape v w := by
  have hcreated := created_of_quiet hq
  cases he with
  | idle => exact SameShape.refl v
  | leaked f create => simp [hcreated] at create
  | entered path f create => simp [hcreated] at create
  | linked => exact absurd hq Bool.false_ne_true
  | unlinked => exact absurd hq Bool.false_ne_true
  | removed => exact absurd hq Bool.false_ne_true
  | renamed => exact absurd hq Bool.false_ne_true
  | retyped path mode source => exact sameShape_put rfl (hk source) rfl rfl
  | opened => exact absurd hq Bool.false_ne_true
  | closed => exact absurd hq Bool.false_ne_true
  | written fh buf size offset data => exact sameShape_put rfl rfl rfl rfl
  | patched k g keeps =>
    exact sameShape_put (keeps.dentries _) (by rw [keeps.stMode]) (keeps.stIno _) (keeps.stNlink _)

/-- A call on names, or one that leaves them alone. Directories stay a tree, entries
keep their targets, and names are free where they are added. -/
def KeepsEntries (v : View) (c : Call) : Prop :=
  (c.isNamespace = true ∨ quiet c = true ∧ KeepsType v c) ∧ KeepsTree v c ∧ KeepsTargets v c ∧
    AddsFree v c

instance (v : View) (c : Call) : Decidable (KeepsEntries v c) :=
  inferInstanceAs (Decidable (_ ∧ _ ∧ _ ∧ _))

def keepsEntries (l : Label) (s : Fs) : Prop := KeepsEntries s.file l.2

instance (l : Label) (s : Fs) : Decidable (keepsEntries l s) :=
  inferInstanceAs (Decidable (KeepsEntries _ _))

structure Kept (B : Finset ℕ) (v : View) : Prop where
  one : OneName B v
  sound : Sound B v
  err : (v errIno).isReg = false
  root : (v 2).isReg = false
  distinct : UniqueNames v

theorem SameShape.kept (h : SameShape v w) (hv : Kept B v) : Kept B w :=
  ⟨h.oneName hv.one,h.sound hv.sound,(h.isReg errIno).trans hv.err,(h.isReg 2).trans hv.root,
    h.uniqueNames hv.distinct⟩

theorem initialized_kept (env : Env) : Kept B (initialized env).file := by
  have hunique := initialized_unique env
  rw [(initialized_eq env).2.2.2] at hunique ⊢
  refine ⟨rootView_oneName env,rootView_sound env,?_,?_,hunique⟩
  · rw [rootView_other env (by decide)]
    exact File.default_isReg
  · rw [rootView_root]
    exact ((type_exclusive _).1 (rootFile_isDir env)).1

theorem kept_effect {K K' : Set ℕ} {c : Call} {r : ℤ} {n' : ℕ} (hv : Kept B v) (hs : Numbers v n)
    (hf : Fresh v n) (hl : 3 ≤ n) (hn : n ≤ n') (hb : n' ≤ 2^31) (hB : ∀ k, k < 2^31 → k ∈ B)
    (hc : c.isNamespace = true) (hk : KeepsEntries v c) (he : Effect v K n c r w K' n') :
    Kept B w := by
  have hB' : ∀ k, k < n' → k ∈ B := fun k hk => hB k (Nat.lt_of_lt_of_le hk hb)
  have hcall := treeCall_of_namespace hc
  have hperm := chmodPerm_of_namespace hc
  obtain ⟨-,htree,htargets,hfree⟩ := hk
  exact ⟨tree_effect hv.one hs hf hB' hc htree he,
    sound_effect hv.sound hv.err hv.root hs hf hl hb hB' hcall hperm htargets hn he,
    isReg_effect hv.err hf.ne_err.symm hcall hperm he,
    isReg_effect hv.root hf.ne_root.symm hcall hperm he,
    (unique_effect_iff hf hv.distinct hc he).mpr hfree⟩

theorem sessions_kept {env : Env} {s : Fs} (h : Sessions env keepsEntries s)
    (hB : ∀ k, k < 2^31 → k ∈ B) : Kept B s.file := by
  have hstep : ∀ l t t' r, Settled t → Settled t' → Kept B t.file → keepsEntries l t →
      answer l.1 l.2 t = some (r,t') →
      Effect t.file t.keys t.count l.2 r t'.file t'.keys t'.count → Kept B t'.file := by
    intro l t t' r hs hs' hv hk _ he
    rcases hk.1 with hc | ⟨hq,htype⟩
    · have hn := (numbers_effect hs.toNumbers hs.low he).2.1
      exact kept_effect hv hs.toNumbers hs.fresh hs.low hn hs'.high hB hc hk he
    · exact (quiet_effect hq htype he).kept hv
  exact sessions_invariant h (initialized_kept env) hstep

end Bbfs.Quiet
