import Bbfs.Tally

/-!
# Directories by age

A directory is made after the one that holds it, so its number is larger. The
directories reached from the root through entries for larger numbers are
`Placed`. In a sound table they are all the directories reached by any
entries, since the other entries for directories lead up again; what placed
directories name is made, and the link count of a file is at least the number
of its entries in placed directories, those that lead up not counted.
-/

set_option autoImplicit false

namespace Bbfs.Placement
open Bbfs.Strings Bbfs.Files Bbfs.Resolve Bbfs.Walks Bbfs.Effects Bbfs.Numbers Bbfs.Directories
open Bbfs.Tally Relation

variable {B : Finset ℕ} {v w : View} {n i x y : ℕ}

def Made (v : View) (i : ℕ) : Prop := i ≠ 0 ∧ (v i).metadata.stIno = i

inductive Visible (v : View) : ℕ → Prop
  | root : Visible v 2
  | entry {x : ℕ} {d : Dirent} (before : Visible v x) (dir : (v x).isDir = true)
      (mem : d ∈ (v x).dentries) : Visible v d.dIno

def Down (v : View) (x y : ℕ) : Prop :=
  (v x).isDir = true ∧ (v y).isDir = true ∧ x < y ∧ ∃ d ∈ (v x).dentries, d.dIno = y

def Placed (v : View) (x : ℕ) : Prop := (v 2).isDir = true ∧ ReflTransGen (Down v) 2 x

open Classical in
/-- An entry of a placed directory for `i` that does not lead up. -/
noncomputable def refers (v : View) (i x : ℕ) (d : Dirent) : Bool :=
  decide (Placed v x ∧ d.dIno = i ∧ ((v i).isDir = true → x < i))

structure Sound (B : Finset ℕ) (v : View) : Prop where
  dirs : Dirs v
  low : ∀ k, (v k).isDir = true → 2 ≤ k
  made : ∀ x, Placed v x → ∀ d ∈ (v x).dentries, Made v d.dIno
  links : ∀ i, i ≠ 2 → Made v i → total B (refers v i) v ≤ (v i).metadata.stNlink
  back : ∀ x, (v x).isDir = true → ∀ d ∈ (v x).dentries, (v d.dIno).isDir = true →
    d.dIno ≠ 2 → d.dIno ≤ x → IsDots d.dName
  up : ∀ x, (v x).isDir = true → ∀ d ∈ (v x).dentries, (v d.dIno).isDir = true →
    d.dIno ≠ 2 → d.dIno ≤ x → d.dIno = x ∨ ∀ z, Down v z x → d.dIno = z

theorem refers_iff {d : Dirent} :
    refers v i x d = true ↔ Placed v x ∧ d.dIno = i ∧ ((v i).isDir = true → x < i) := by
  simp [refers]

theorem Placed.isDir (h : Placed v x) : (v x).isDir = true := by
  rcases ReflTransGen.cases_tail h.2 with he | ⟨z,-,hz⟩
  · rw [he]
    exact h.1
  · exact hz.2.1

theorem Placed.mono (h : Placed w x) (h2 : (v 2).isDir = true)
    (hd : ∀ a b, Down w a b → Down v a b) : Placed v x :=
  ⟨h2,ReflTransGen.mono hd _ _ h.2⟩

theorem Placed.holder (h : Placed v x) (h2 : x ≠ 2) : ∃ z, Placed v z ∧ Down v z x := by
  rcases ReflTransGen.cases_tail h.2 with he | ⟨z,hz,hd⟩
  · exact absurd he h2
  · exact ⟨z,⟨h.1,hz⟩,hd⟩

theorem Sound.placed (h : Sound B v) (hv : Visible v x) (hd : (v x).isDir = true) :
    Placed v x := by
  induction hv with
  | root => exact ⟨hd,ReflTransGen.refl⟩
  | @entry x d before dir mem ih =>
    have hx := ih dir
    by_cases h2 : d.dIno = 2
    · rw [h2]
      exact ⟨hx.1,ReflTransGen.refl⟩
    by_cases hlt : x < d.dIno
    · exact ⟨hx.1,hx.2.tail ⟨dir,hd,hlt,d,mem,rfl⟩⟩
    · rcases h.up x dir d mem hd h2 (Nat.le_of_not_lt hlt) with he | hall
      · rw [he]
        exact hx
      · have hx2 : x ≠ 2 := by
          have := h.low _ hd
          omega
        obtain ⟨z,hz,hdown⟩ := hx.holder hx2
        rw [hall z hdown]
        exact hz

theorem Sound.made_visible (h : Sound B v) (hv : Visible v i) (h2 : i ≠ 2) : Made v i := by
  cases hv with
  | root => exact absurd rfl h2
  | entry before dir mem => exact h.made _ (h.placed before dir) _ mem

theorem visible_walk (h0 : (v 0).isDir = false) (hx : Visible v x) (segs : List Str) :
    walk v x segs = 0 ∨ Visible v (walk v x segs) := by
  induction segs generalizing x with
  | nil => exact Or.inr hx
  | cons it segs ih =>
    rw [walk]
    split_ifs with he hd
    · exact ih hx
    · rcases nameIn_origin (v := v) it x with hz | ⟨-,d,hm,-,hi⟩
      · rw [hz]
        exact Or.inl (walk_zero h0 segs)
      · rw [← hi]
        exact ih (Visible.entry hx hd hm)
    · exact Or.inl rfl

theorem visible_resolve (h0 : (v 0).isDir = false) {path : Str} (hne : resolve v path ≠ 0)
    (herr : resolve v path ≠ errIno) : Visible v (resolve v path) := by
  rcases resolve_real (v := v) path with he | ⟨q,hq⟩
  · exact absurd he herr
  · rw [hq] at hne ⊢
    exact (visible_walk h0 Visible.root (segments q)).resolve_left hne

theorem Sound.placed_resolve (h : Sound B v) (hs : Numbers v n) (hb : n ≤ 2^31) {path : Str}
    (hd : (v (resolve v path)).isDir = true) : Placed v (resolve v path) := by
  obtain ⟨hne,hlt⟩ := h.dirs.lt hs hd
  have herr : resolve v path ≠ errIno := by
    rw [errIno]
    omega
  exact h.placed (visible_resolve (untyped hs.sentinel).1 hne herr) hd

theorem refers_mono (hp : ∀ a, Placed w a → Placed v a) (hd : (w i).isDir = (v i).isDir)
    {d : Dirent} (h : refers w i x d = true) : refers v i x d = true := by
  obtain ⟨hx,hi,hlt⟩ := refers_iff.mp h
  rw [hd] at hlt
  exact refers_iff.mpr ⟨hp x hx,hi,hlt⟩

theorem Sound.narrow (h : Sound B v) (hdir : ∀ i, (w i).isDir = (v i).isDir)
    (hino : ∀ i, (w i).metadata.stIno = (v i).metadata.stIno) (hdirs : Dirs w)
    (hent : ∀ x, (v x).isDir = true → ∀ d ∈ (w x).dentries,
      (∃ e ∈ (v x).dentries, e.dIno = d.dIno) ∨
        Made v d.dIno ∧ ((v d.dIno).isDir = true → d.dIno = 2))
    (hback : ∀ x, (v x).isDir = true → ∀ d ∈ (w x).dentries, (v d.dIno).isDir = true →
      d.dIno ≠ 2 → d.dIno ≤ x → IsDots d.dName)
    (hlinks : ∀ i, i ≠ 2 → Made v i → total B (refers v i) w ≤ (w i).metadata.stNlink) :
    Sound B w := by
  have hmade : ∀ i, Made v i ↔ Made w i := fun i => by rw [Made, Made, hino]
  have hdown : ∀ a b, Down w a b → Down v a b := by
    intro a b ⟨ha,hb,hlt,d,hm,hi⟩
    rw [hdir] at ha hb
    refine ⟨ha,hb,hlt,?_⟩
    rcases hent a ha d hm with ⟨e,he,hei⟩ | ⟨-,h2⟩
    · exact ⟨e,he,hei.trans hi⟩
    · rw [hi] at h2
      have hb2 := h2 hb
      have := h.low a ha
      omega
  have hplaced : ∀ a, Placed w a → Placed v a :=
    fun a ha => ha.mono (by rw [← hdir]; exact ha.1) hdown
  refine ⟨hdirs,?_,?_,?_,?_,?_⟩
  · intro k hk
    rw [hdir] at hk
    exact h.low k hk
  · intro x hx d hm
    rw [← hmade]
    rcases hent x (hplaced x hx).isDir d hm with ⟨e,he,hei⟩ | ⟨hm',-⟩
    · rw [← hei]
      exact h.made x (hplaced x hx) e he
    · exact hm'
  · intro i h2 hi
    rw [← hmade] at hi
    refine Nat.le_trans (total_le (fun k => tally_mono (fun d _ hd => ?_))) (hlinks i h2 hi)
    exact refers_mono hplaced (hdir i) hd
  · intro x hx d hm hd
    rw [hdir] at hx hd
    exact hback x hx d hm hd
  · intro x hx d hm hd h2 hle
    rw [hdir] at hx hd
    rcases hent x hx d hm with ⟨e,he,hei⟩ | ⟨-,hroot⟩
    · rw [← hei] at hd h2 hle ⊢
      rcases h.up x hx e he hd h2 hle with hself | hall
      · exact Or.inl hself
      · exact Or.inr (fun z hz => hall z (hdown z x hz))
    · exact absurd (hroot hd) h2

theorem placed_shrink (hdir : ∀ i, (w i).isDir = (v i).isDir)
    (hsub : ∀ x, (w x).dentries ⊆ (v x).dentries) (h : Placed w x) : Placed v x := by
  apply h.mono (by rw [← hdir]; exact h.1)
  intro a b ⟨ha,hb,hlt,d,hm,hi⟩
  rw [hdir] at ha hb
  exact ⟨ha,hb,hlt,d,hsub a hm,hi⟩

theorem Sound.drop (h : Sound B v) (hB : ∀ k, (v k).isDir = true → k ∈ B) {k : ℕ}
    {g : File → File} (hg : Edit g) (hs : (g (v k)).dentries ⊆ (v k).dentries)
    (ht : ∀ p, tally p (g (v k)) ≤ tally p (v k)) : Sound B (put v k g) := by
  have hsub : ∀ x, (put v k g x).dentries ⊆ (v x).dentries := fun x d hd => mem_shrunk hs hd
  refine h.narrow (hg.isDir v k) (fun i => by rw [hg.put_metadata]) (dirs_edit h.dirs hg k) ?_ ?_ ?_
  · exact fun x _ d hm => Or.inl ⟨d,hsub x hm,rfl⟩
  · exact fun x hx d hm => h.back x hx d (hsub x hm)
  · intro i h2 hi
    have hsum := total_put (p := refers v i) (hB k) (g := g)
      (by rw [File.isDir, hg.metadata]; exact id)
    have hle := ht (refers v i k)
    have hlink := h.links i h2 hi
    rw [hg.put_metadata]
    omega

theorem Sound.dropNamed (h : Sound B v) (hB : ∀ k, (v k).isDir = true → k ∈ B) (k : ℕ) (m : Str) :
    Sound B (put v k (File.dropNamed m)) := by
  refine h.drop hB (.dropNamed m) List.eraseP_subset (fun p => ?_)
  have := tally_dropNamed p m (v k)
  omega

theorem Sound.dropIno (h : Sound B v) (hB : ∀ k, (v k).isDir = true → k ∈ B) (k j : ℕ) :
    Sound B (put v k (File.dropIno j)) := by
  refine h.drop hB (.dropIno j) List.eraseP_subset (fun p => ?_)
  have := tally_dropIno p j (v k)
  omega

/-- A file without references may be erased: what lies below it is no longer
placed, and nothing else leads up to it. -/
theorem Sound.erase (h : Sound B v) (hB : ∀ k, (v k).isDir = true → k ∈ B) {fh : ℕ}
    (hfree : fh = 2 ∨ ¬ Made v fh ∨ total B (refers v fh) v = 0) :
    Sound B (Function.update v fh default) := by
  have hne : ∀ a, (Function.update v fh default a).isDir = true → a ≠ fh := by
    rintro a ha rfl
    simp at ha
  have hdir : ∀ a, (Function.update v fh default a).isDir = true → (v a).isDir = true := by
    intro a ha
    rwa [Function.update_of_ne (hne a ha)] at ha
  have hent : ∀ a, a ≠ fh → Function.update v fh default a = v a :=
    fun a ha => Function.update_of_ne ha _ v
  have hdown : ∀ a b, Down (Function.update v fh default) a b → Down v a b := by
    intro a b ⟨ha,hb,hlt,d,hm,hi⟩
    rw [hent a (hne a ha)] at hm
    exact ⟨hdir a ha,hdir b hb,hlt,d,hm,hi⟩
  have hplaced : ∀ a, Placed (Function.update v fh default) a → Placed v a :=
    fun a ha => ha.mono (hdir 2 ha.1) hdown
  refine ⟨dirs_update h.dirs (by simp),fun k hk => h.low k (hdir k hk),?_,?_,?_,?_⟩
  · intro x hx d hm
    have hxf := hne x hx.isDir
    rw [hent x hxf] at hm
    have hd := h.made x (hplaced x hx) d hm
    have hdf : d.dIno ≠ fh := by
      rintro rfl
      have hzero := (hfree.resolve_left (hne 2 hx.1).symm).resolve_left (not_not_intro hd)
      have hnot := total_zero_entry hzero (hB x (hdir x hx.isDir)) (hdir x hx.isDir) hm
      rw [Bool.eq_false_iff, ne_eq, refers_iff] at hnot
      -- the entry leads up, so its target is the holder of `x`, which still is a directory
      have hfd : (v d.dIno).isDir = true ∧ d.dIno ≤ x := by
        by_contra hc
        exact hnot ⟨hplaced x hx,rfl,fun hd' => by
          by_contra hlt
          exact hc ⟨hd',Nat.le_of_not_lt hlt⟩⟩
      rcases h.up x (hdir x hx.isDir) d hm hfd.1 (hne 2 hx.1).symm hfd.2 with he | hall
      · exact hxf he.symm
      · have hx2 : x ≠ 2 := by
          have hlow := h.low _ hfd.1
          have hroot := hne 2 hx.1
          omega
        obtain ⟨z,hz,hzx⟩ := hx.holder hx2
        exact hne z hz.isDir (hall z (hdown z x hzx)).symm
    rw [Made, hent _ hdf]
    exact hd
  · intro i h2 hi
    have hif : i ≠ fh := by
      rintro rfl
      have hz := hi.2
      rw [Function.update_self] at hz
      exact hi.1 hz.symm
    rw [Made, hent i hif] at hi
    rw [hent i hif]
    refine Nat.le_trans (total_le (fun k => ?_)) (h.links i h2 hi)
    by_cases hk : k = fh
    · subst hk
      rw [Function.update_self, tally_of_not_dir File.default_isDir]
      exact Nat.zero_le _
    · rw [hent k hk]
      exact tally_mono (fun d _ hd => refers_mono hplaced (by rw [hent i hif]) hd)
  · intro x hx d hm hd
    rw [hent x (hne x hx)] at hm
    exact h.back x (hdir x hx) d hm (hdir _ hd)
  · intro x hx d hm hd h2 hle
    rw [hent x (hne x hx)] at hm
    rcases h.up x (hdir x hx) d hm (hdir _ hd) h2 hle with he | hall
    · exact Or.inl he
    · exact Or.inr (fun z hz => hall z (hdown z x hz))

theorem sound_dropLink (h : Sound B v) (hB : ∀ k, (v k).isDir = true → k ∈ B) {fh : ℕ}
    (hfree : fh = 2 ∨ ¬ Made v fh ∨
      total B (refers v fh) v+1 ≤ (v fh).metadata.stNlink) : Sound B (dropLink v fh) := by
  have hdirs := dirs_dropLink h.dirs fh
  unfold dropLink at hdirs ⊢
  split_ifs at hdirs ⊢ with hl
  · refine h.erase hB (hfree.imp_right (fun hf => hf.imp_right (fun hle => ?_)))
    unfold LastLink decrement at hl
    split_ifs at hl
    omega
  · have hm : ∀ i, (put v fh (File.setStat decNlink) i).dentries = (v i).dentries ∧
        (put v fh (File.setStat decNlink) i).metadata.stIno = (v i).metadata.stIno := by
      intro i
      by_cases hi : i = fh
      · subst hi
        rw [put_self]
        exact ⟨rfl,rfl⟩
      · rw [put_of_ne _ _ hi]
        exact ⟨rfl,rfl⟩
    refine h.narrow (setStat_isDir (g := decNlink) (fun _ => rfl) fh) (fun i => (hm i).2) hdirs
      ?_ ?_ ?_
    · intro x _ d hd
      rw [(hm x).1] at hd
      exact Or.inl ⟨d,hd,rfl⟩
    · intro x hx d hd
      rw [(hm x).1] at hd
      exact h.back x hx d hd
    · intro i h2 hi
      rw [total_setStat (hB fh) rfl]
      by_cases hif : i = fh
      · subst hif
        have hle := (hfree.resolve_left h2).resolve_left (not_not_intro hi)
        have hdec : ((v i).setStat decNlink).metadata.stNlink =
          decrement (v i).metadata.stNlink := rfl
        rw [put_self, hdec, decrement, if_neg (by omega)]
        omega
      · rw [put_of_ne _ _ hif]
        exact h.links i h2 hi

theorem fresh_down (h : Dirs v) (hs : Numbers v n) (hf : Fresh v n) (f : File) (a b : ℕ) :
    Down (Function.update v n f) a b ↔ Down v a b := by
  have hent : ∀ c, c ≠ n → Function.update v n f c = v c := fun c hc => Function.update_of_ne hc f v
  constructor
  · intro ⟨ha,hb,hlt,d,hm,hi⟩
    by_cases han : a = n
    · subst han
      rw [hent b (by omega)] at hb
      have := (h.lt hs hb).2
      omega
    · rw [hent a han] at ha hm
      have hbn : b ≠ n := by
        rintro rfl
        exact hf.unnamed a d hm hi
      rw [hent b hbn] at hb
      exact ⟨ha,hb,hlt,d,hm,hi⟩
  · intro ⟨ha,hb,hlt,hd⟩
    have hne : ∀ c, (v c).isDir = true → c ≠ n := by
      rintro c hc rfl
      have := (h.lt hs hc).2
      omega
    rw [Down, hent a (hne a ha), hent b (hne b hb)]
    exact ⟨ha,hb,hlt,hd⟩

theorem fresh_placed (h : Dirs v) (hs : Numbers v n) (hf : Fresh v n) (f : File) (a : ℕ) :
    Placed (Function.update v n f) a ↔ Placed v a := by
  have hrel : Down (Function.update v n f) = Down v :=
    funext (fun a => funext (fun b => propext (fresh_down h hs hf f a b)))
  rw [Placed, Placed, Function.update_of_ne hf.ne_root.symm, hrel]

theorem Sound.fresh (h : Sound B v) (hs : Numbers v n) (hf : Fresh v n) (hl : 3 ≤ n) {f : File}
    {kind : Mode} (new : NewFile n kind f) (hdots : ∀ d ∈ f.dentries, IsDots d.dName) :
    Sound B (Function.update v n f) ∧ ∀ a, Placed (Function.update v n f) a ↔ Placed v a := by
  have hvn : (v n).isDir = false := (untyped (hs.spare n le_rfl hf.ne_err).2).1
  have hent : ∀ a, a ≠ n → Function.update v n f a = v a := fun a ha => Function.update_of_ne ha f v
  have hplaced := fresh_placed h.dirs hs hf f
  have hpn : ¬ Placed v n := by
    intro hp
    have hd := hp.isDir
    rw [hvn] at hd
    exact Bool.false_ne_true hd
  refine ⟨⟨dirs_update h.dirs (fun _ => ⟨new.nlink,new.ino⟩),?_,?_,?_,?_,?_⟩,hplaced⟩
  · intro k hk
    by_cases hkn : k = n
    · omega
    · rw [hent k hkn] at hk
      exact h.low k hk
  · intro x hx d hm
    rw [hplaced] at hx
    have hxn : x ≠ n := by
      rintro rfl
      exact hpn hx
    rw [hent x hxn] at hm
    rw [Made, hent _ (hf.unnamed x d hm)]
    exact h.made x hx d hm
  · intro i h2 hi
    by_cases hin : i = n
    · subst hin
      have hzero : total B (refers (Function.update v i f) i) (Function.update v i f) = 0 := by
        refine total_eq_zero (fun k d hm => ?_)
        rw [Bool.eq_false_iff, ne_eq, refers_iff, hplaced]
        rintro ⟨hp,he,-⟩
        have hki : k ≠ i := by
          rintro rfl
          exact hpn hp
        rw [hent k hki] at hm
        exact hf.unnamed k d hm he
      rw [hzero]
      exact Nat.zero_le _
    · rw [Made, hent i hin] at hi
      rw [hent i hin]
      refine Nat.le_trans (total_le (fun k => ?_)) (h.links i h2 hi)
      by_cases hk : k = n
      · subst hk
        rw [tally_eq_zero]
        · exact Nat.zero_le _
        · intro d _
          rw [Bool.eq_false_iff, ne_eq, refers_iff, hplaced]
          exact fun hc => hpn hc.1
      · rw [hent k hk]
        refine tally_mono (fun d _ hd => ?_)
        exact refers_mono (fun a => (hplaced a).mp) (by rw [hent i hin]) hd
  · intro x hx d hm hd h2 hle
    by_cases hxn : x = n
    · subst hxn
      rw [Function.update_self] at hm
      exact hdots d hm
    · rw [hent x hxn] at hx hm
      rw [hent _ (hf.unnamed x d hm)] at hd
      exact h.back x hx d hm hd h2 hle
  · intro x hx d hm hd h2 hle
    by_cases hxn : x = n
    · subst hxn
      refine Or.inr (fun z hz => ?_)
      have hd := ((fresh_down h.dirs hs hf f z x).mp hz).2.1
      rw [hvn] at hd
      exact absurd hd Bool.false_ne_true
    · rw [hent x hxn] at hx hm
      rw [hent _ (hf.unnamed x d hm)] at hd
      rcases h.up x hx d hm hd h2 hle with he | hall
      · exact Or.inl he
      · exact Or.inr (fun z hz => hall z ((fresh_down h.dirs hs hf f z x).mp hz))

theorem down_pushed {P a b : ℕ} {name : Str} (h : Down (put v P (File.push ⟨name,n⟩)) a b) :
    Down v a b ∨ a = P ∧ b = n := by
  obtain ⟨ha,hb,hab,d,hm,hi⟩ := h
  rw [(Edit.push _).isDir] at ha hb
  rcases mem_pushed hm with hold | ⟨rfl,rfl⟩
  · exact Or.inl ⟨ha,hb,hab,d,hold,hi⟩
  · exact Or.inr ⟨rfl,hi.symm⟩

theorem placed_pushed {P a : ℕ} {name : Str} (hleaf : ∀ b, ¬ Down v n b)
    (h : Placed (put v P (File.push ⟨name,n⟩)) a) : Placed v a ∨ a = n := by
  obtain ⟨h2,hwalk⟩ := h
  rw [(Edit.push _).isDir] at h2
  induction hwalk with
  | refl => exact Or.inl ⟨h2,ReflTransGen.refl⟩
  | tail _ hbc ih =>
    rcases down_pushed hbc with hold | ⟨-,hc⟩
    · rcases ih with hb | rfl
      · exact Or.inl ⟨h2,hb.2.tail hold⟩
      · exact absurd hold (hleaf _)
    · exact Or.inr hc

theorem Sound.enter (h : Sound B v) (hB : ∀ k, (v k).isDir = true → k ∈ B) {P : ℕ} {name : Str}
    (hP : Placed v P) (hlt : P < n) (hn : Made v n) (hlink : (v n).metadata.stNlink = 1)
    (hun : ∀ k, k ≠ n → ∀ d ∈ (v k).dentries, d.dIno ≠ n)
    (hself : (v n).isDir = true → ∀ d ∈ (v n).dentries, d.dIno = n ∨ d.dIno = P) :
    Sound B (put v P (File.push ⟨name,n⟩)) := by
  have hdir := (Edit.push ⟨name,n⟩).isDir v P
  have hmeta := fun i => (Edit.push ⟨name,n⟩).put_metadata v P i
  have hPd := hP.isDir
  have hent : ∀ x, ∀ d ∈ (put v P (File.push ⟨name,n⟩) x).dentries,
      d ∈ (v x).dentries ∨ x = P ∧ d.dIno = n :=
    fun x d hm => (mem_pushed hm).imp_right (fun he => ⟨he.1,congrArg Dirent.dIno he.2⟩)
  have hleaf : ∀ b, ¬ Down v n b := by
    intro b ⟨ha,_,hab,d,hm,hi⟩
    rcases hself ha d hm with he | he <;> omega
  have hplaced : ∀ a, Placed (put v P (File.push ⟨name,n⟩)) a → Placed v a ∨ a = n :=
    fun a ha => placed_pushed hleaf ha
  have hmade : ∀ i, Made (put v P (File.push ⟨name,n⟩)) i ↔ Made v i :=
    fun i => by rw [Made, Made, hmeta]
  have hPm : Made v P := by
    have hlow := h.low P hPd
    exact ⟨by omega,(h.dirs P hPd).2⟩
  refine ⟨dirs_edit h.dirs (.push _) P,?_,?_,?_,?_,?_⟩
  · intro k hk
    rw [hdir] at hk
    exact h.low k hk
  · intro x hx d hm
    rw [hmade]
    rcases hent x d hm with hold | ⟨-,hdn⟩
    · rcases hplaced x hx with hxv | rfl
      · exact h.made x hxv d hold
      · have hxd := hx.isDir
        rw [hdir] at hxd
        rcases hself hxd d hold with he | he
        · rw [he]
          exact hn
        · rw [he]
          exact hPm
    · rw [hdn]
      exact hn
  · intro i h2 hi
    rw [hmade] at hi
    rw [hmeta, total_push (hB P)]
    by_cases hin : i = n
    · subst hin
      have hzero : total B (refers (put v P (File.push ⟨name,i⟩)) i) v = 0 := by
        refine total_eq_zero (fun k d hm => ?_)
        rw [Bool.eq_false_iff, ne_eq, refers_iff]
        rintro ⟨hk,hdi,hup⟩
        by_cases hki : k = i
        · subst hki
          exact Nat.lt_irrefl k (hup hk.isDir)
        · exact hun k hki d hm hdi
      rw [hzero, hlink]
      split_ifs <;> omega
    · have hnew : refers (put v P (File.push ⟨name,n⟩)) i P ⟨name,n⟩ = false := by
        rw [Bool.eq_false_iff, ne_eq, refers_iff]
        exact fun hc => hin hc.2.1.symm
      rw [hnew, if_neg (by simp), Nat.add_zero]
      refine Nat.le_trans (total_le (fun k => tally_mono (fun d hm hd => ?_))) (h.links i h2 hi)
      obtain ⟨hk,hdi,hup⟩ := refers_iff.mp hd
      rw [hdir] at hup
      rcases hplaced k hk with hkv | rfl
      · exact refers_iff.mpr ⟨hkv,hdi,hup⟩
      · have hkd := hk.isDir
        rw [hdir] at hkd
        rcases hself hkd d hm with he | he
        · exact absurd (hdi.symm.trans he) hin
        · have hiP : i = P := hdi.symm.trans he
          rw [hiP] at hup
          have := hup hPd
          omega
  · intro x hx d hm hd h2 hle
    rw [hdir] at hx hd
    rcases hent x d hm with hold | ⟨rfl,hdn⟩
    · exact h.back x hx d hold hd h2 hle
    · omega
  · intro x hx d hm hd h2 hle
    rw [hdir] at hx hd
    rcases hent x d hm with hold | ⟨rfl,hdn⟩
    · rcases h.up x hx d hold hd h2 hle with he | hall
      · exact Or.inl he
      · by_cases hxn : x = n
        · subst hxn
          rcases hself hx d hold with he | he
          · exact Or.inl he
          · refine Or.inr (fun z hz => ?_)
            rcases down_pushed hz with hold' | ⟨hzP,-⟩
            · exact hall z hold'
            · rw [he, hzP]
        · refine Or.inr (fun z hz => ?_)
          rcases down_pushed hz with hold' | ⟨-,hxn'⟩
          · exact hall z hold'
          · exact absurd hxn' hxn
    · omega

end Bbfs.Placement
