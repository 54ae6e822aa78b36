import Bbfs.Counting
import Bbfs.Directories

/-!
# Counting the entries of directories

`total B p v` counts the entries that `p` selects over the directories among
`B`. All directories of a session have numbers below the largest counter; over
the keys of a table the sum is the same. The names of a file `i` are the
entries that `names i` selects.
-/

set_option autoImplicit false

namespace Bbfs.Tally
open Bbfs.Strings Bbfs.Files Bbfs.Resolve Bbfs.Calls Bbfs.Session Bbfs.Walks Bbfs.Effects
open Bbfs.Numbers Bbfs.Directories Bbfs.Counting

def names (i : ℕ) (d : Dirent) : Bool := !decide (IsDots d.dName) && d.dIno == i

def held (f : File) : List Dirent := if f.isDir then f.dentries else []

def tally (p : Dirent → Bool) (f : File) : ℕ := (held f).countP p

def found (q : Dirent → Bool) (f : File) : List Dirent := ((held f).find? q).toList

def total (B : Finset ℕ) (p : ℕ → Dirent → Bool) (v : View) : ℕ := ∑ k ∈ B, tally (p k) (v k)

variable {B : Finset ℕ} {p : ℕ → Dirent → Bool} {v w : View} {f : File} {i k : ℕ} {name : Str}

theorem names_iff {d : Dirent} : names i d = true ↔ ¬ IsDots d.dName ∧ d.dIno = i := by
  simp [names]

theorem held_of_dir (h : f.isDir = true) : held f = f.dentries := by
  rw [held, if_pos h]

theorem held_of_not_dir (h : f.isDir = false) : held f = [] := by
  simp [held, h]

theorem held_subset (f : File) : held f ⊆ f.dentries := by
  unfold held
  split_ifs
  · exact List.Subset.refl _
  · exact List.nil_subset _

theorem tally_of_not_dir (h : f.isDir = false) (p : Dirent → Bool) : tally p f = 0 := by
  rw [tally, held_of_not_dir h, List.countP_nil]

theorem tally_eq_zero {p : Dirent → Bool} (h : ∀ d ∈ f.dentries, p d = false) : tally p f = 0 := by
  refine List.countP_eq_zero.mpr (fun d hd => ?_)
  rw [h d (held_subset f hd)]
  exact Bool.false_ne_true

theorem total_update (hk : k ∈ B) (f : File) :
    total B p (Function.update v k f) + tally (p k) (v k) = total B p v + tally (p k) f := by
  have hfun : (fun j => tally (p j) (Function.update v k f j)) =
      Function.update (fun j => tally (p j) (v j)) k (tally (p k) f) := by
    funext j
    by_cases hj : j = k
    · subst hj
      simp
    · simp [hj]
  unfold total
  rw [hfun]
  exact sum_update_add (fun j => tally (p j) (v j)) hk (tally (p k) f)

theorem total_put (hk : (v k).isDir = true → k ∈ B) {g : File → File}
    (hg : (g (v k)).isDir = true → (v k).isDir = true) :
    total B p (put v k g) + tally (p k) (v k) = total B p v + tally (p k) (g (v k)) := by
  by_cases hb : k ∈ B
  · exact total_update hb (g (v k))
  · have hd : (v k).isDir = false := by
      by_contra hd
      exact hb (hk (by simpa using hd))
    have hd' : (g (v k)).isDir = false := by
      by_contra hc
      simp [hg (by simpa using hc)] at hd
    have hsum : ∀ j ∈ B, tally (p j) (put v k g j) = tally (p j) (v j) := by
      intro j hj
      have hne : j ≠ k := fun he => hb (he ▸ hj)
      rw [put_of_ne _ _ hne]
    rw [tally_of_not_dir hd, tally_of_not_dir hd', total, total, Finset.sum_congr rfl hsum]

theorem total_le {q : ℕ → Dirent → Bool} (h : ∀ k, tally (q k) (w k) ≤ tally (p k) (v k)) :
    total B q w ≤ total B p v :=
  Finset.sum_le_sum (fun k _ => h k)

theorem total_eq_zero (h : ∀ k, ∀ d ∈ (v k).dentries, p k d = false) : total B p v = 0 :=
  Finset.sum_eq_zero (fun k _ => tally_eq_zero (h k))

theorem total_zero_entry (h : total B p v = 0) (hk : k ∈ B) (hd : (v k).isDir = true) {d : Dirent}
    (hm : d ∈ (v k).dentries) : p k d = false := by
  have hsum := Finset.sum_eq_zero_iff.mp h k hk
  rw [tally, held_of_dir hd, List.countP_eq_zero] at hsum
  simpa using hsum d hm

theorem tally_mono {p q : Dirent → Bool} (h : ∀ d ∈ f.dentries, q d = true → p d = true) :
    tally q f ≤ tally p f :=
  List.countP_mono_left (fun d hd => h d (held_subset f hd))

theorem total_unnamed (h : ∀ k, ∀ d ∈ (v k).dentries, d.dIno ≠ i) :
    total B (fun _ => names i) v = 0 := by
  refine total_eq_zero (fun k d hd => ?_)
  rw [Bool.eq_false_iff]
  exact fun hn => h k d hd (names_iff.mp hn).2

theorem tally_pos {x : ℕ} : 0 < tally (names i) (v x) ↔ Holds v x i := by
  unfold tally Holds held
  by_cases hd : (v x).isDir = true
  · rw [if_pos hd, List.countP_pos_iff]
    simp only [names_iff, hd, true_and]
  · simp [hd]

theorem holds_unique (h : total B (fun _ => names i) v ≤ 1)
    (hl : ∀ k, (v k).isDir = true → k ∈ B) {x x' : ℕ} (hx : Holds v x i) (hx' : Holds v x' i) :
    x = x' := by
  by_contra hne
  have hsum : tally (names i) (v x) + tally (names i) (v x') ≤ total B (fun _ => names i) v := by
    rw [total, ← Finset.sum_pair (f := fun y => tally (names i) (v y)) hne]
    refine Finset.sum_le_sum_of_subset (fun y hy => ?_)
    rcases Finset.mem_insert.mp hy with rfl | hy
    · exact hl y hx.1
    · rw [Finset.mem_singleton] at hy
      subst hy
      exact hl y hx'.1
  have h1 := tally_pos.mpr hx
  have h2 := tally_pos.mpr hx'
  omega

theorem total_pos (hl : ∀ k, (v k).isDir = true → k ∈ B) :
    0 < total B (fun _ => names i) v ↔ ∃ x, Holds v x i := by
  constructor
  · intro h
    obtain ⟨x,-,hx⟩ := Finset.exists_ne_zero_of_sum_ne_zero (Nat.pos_iff_ne_zero.mp h)
    exact ⟨x,tally_pos.mp (Nat.pos_of_ne_zero hx)⟩
  · intro ⟨x,hx⟩
    exact Nat.lt_of_lt_of_le (tally_pos.mpr hx)
      (Finset.single_le_sum (f := fun y => tally (names i) (v y)) (fun _ _ => Nat.zero_le _)
        (hl x hx.1))

theorem total_keys {s : Fs} (hl : ∀ k, (s.file k).isDir = true → k ∈ B) :
    total B p s.file = ∑ k ∈ s.entry.keys, tally (p k) (s.file k) := by
  have hrange : ∑ k ∈ B, tally (p k) (s.file k) =
      ∑ k ∈ B ∪ s.entry.keys, tally (p k) (s.file k) := by
    refine Finset.sum_subset Finset.subset_union_left (fun k _ hk => tally_of_not_dir ?_ _)
    by_contra hd
    exact hk (hl k (by simpa using hd))
  have hkeys : ∑ k ∈ s.entry.keys, tally (p k) (s.file k) =
      ∑ k ∈ B ∪ s.entry.keys, tally (p k) (s.file k) := by
    refine Finset.sum_subset Finset.subset_union_right (fun k _ hk => tally_of_not_dir ?_ _)
    rw [Fs.file, InsertingMap.read_of_notMem (fun hm => hk (Finmap.mem_keys.mpr hm))]
    exact File.default_isDir
  rw [total, hrange, hkeys]

theorem tally_eraseP (p q : Dirent → Bool) (f : File) :
    tally p { f with dentries := f.dentries.eraseP q } + (found q f).countP p = tally p f := by
  have hd : File.isDir { f with dentries := f.dentries.eraseP q } = f.isDir := rfl
  unfold tally found held
  rw [hd]
  by_cases hf : f.isDir = true
  · rw [if_pos hf, if_pos hf]
    exact countP_eraseP p q f.dentries
  · rw [if_neg hf, if_neg hf]
    rfl

theorem tally_dropNamed (p : Dirent → Bool) (m : Str) (f : File) :
    tally p (f.dropNamed m) + (found (fun d => d.dName == m) f).countP p = tally p f :=
  tally_eraseP p (fun d => d.dName == m) f

theorem tally_dropIno (p : Dirent → Bool) (j : ℕ) (f : File) :
    tally p (f.dropIno j) + (found (fun d => d.dIno == j) f).countP p = tally p f :=
  tally_eraseP p (fun d => d.dIno == j) f

theorem tally_push (p : Dirent → Bool) (d : Dirent) (f : File) :
    tally p (f.push d) = tally p f + if f.isDir = true ∧ p d = true then 1 else 0 := by
  have hd : (f.push d).isDir = f.isDir := rfl
  unfold tally held
  rw [hd, File.push_dentries]
  by_cases hf : f.isDir = true
  · simp only [hf, if_true, true_and, List.countP_append, List.countP_singleton]
  · simp [hf]

theorem total_push (hk : (v k).isDir = true → k ∈ B) (d : Dirent) :
    total B p (put v k (File.push d)) =
      total B p v + if (v k).isDir = true ∧ p k d = true then 1 else 0 := by
  have h := total_put (p := p) hk (g := File.push d) id
  rw [tally_push] at h
  omega

theorem total_enter (hk : k ∈ B) (hd : (v k).isDir = true) (hn : ¬ IsDots name) (j i : ℕ) :
    total B (fun _ => names i) (put v k (File.push ⟨name,j⟩)) =
      total B (fun _ => names i) v + if j = i then 1 else 0 := by
  rw [total_push (fun _ => hk), hd]
  simp only [names_iff, hn, not_false_eq_true, true_and]

theorem total_dropNamed (hk : (v k).isDir = true → k ∈ B) (m : Str) :
    total B p (put v k (File.dropNamed m)) +
      (found (fun d => d.dName == m) (v k)).countP (p k) = total B p v := by
  have h := total_put (p := p) hk (g := File.dropNamed m) id
  have ht := tally_dropNamed (p k) m (v k)
  omega

theorem total_dropIno (hk : (v k).isDir = true → k ∈ B) (j : ℕ) :
    total B p (put v k (File.dropIno j)) +
      (found (fun d => d.dIno == j) (v k)).countP (p k) = total B p v := by
  have h := total_put (p := p) hk (g := File.dropIno j) id
  have ht := tally_dropIno (p k) j (v k)
  omega

theorem total_setStat (hk : (v k).isDir = true → k ∈ B) {g : Stat → Stat}
    (hg : (g (v k).metadata).stMode = (v k).metadata.stMode) :
    total B p (put v k (File.setStat g)) = total B p v := by
  have hd : ((v k).setStat g).isDir = (v k).isDir := by
    rw [File.isDir, File.setStat_metadata, hg, File.isDir]
  have h := total_put (p := p) hk (g := File.setStat g) (fun hc => hd ▸ hc)
  have ht : tally (p k) ((v k).setStat g) = tally (p k) (v k) := by
    rw [tally, tally, held, held, hd, File.setStat_dentries]
  omega

theorem total_erase (hk : (v k).isDir = true → k ∈ B) :
    total B p (Function.update v k default) + tally (p k) (v k) = total B p v := by
  have h := total_put (p := p) hk (g := fun _ => default) (by simp)
  rw [tally_of_not_dir (f := default) File.default_isDir] at h
  exact h

theorem total_fresh (hk : k ∈ B) (hv : (v k).dentries = []) (f : File) :
    total B p (Function.update v k f) = total B p v + tally (p k) f := by
  have h := total_update (p := p) (v := v) hk f
  have h0 : tally (p k) (v k) = 0 := by
    refine tally_eq_zero (fun d hd => ?_)
    rw [hv] at hd
    simp at hd
  omega

theorem tally_of_dots (h : ∀ d ∈ f.dentries, IsDots d.dName) : tally (names i) f = 0 := by
  refine tally_eq_zero (fun d hd => ?_)
  rw [Bool.eq_false_iff]
  exact fun hn => (names_iff.mp hn).1 (h d hd)

theorem found_of_first {m : Str} {d : Dirent} (hf : f.isDir = true)
    (hd : firstNamed m f = some d) : found (fun d => d.dName == m) f = [d] := by
  unfold firstNamed at hd
  rw [found, held_of_dir hf, hd, Option.toList_some]

theorem count_first {m : Str} {d : Dirent} (hf : f.isDir = true) (hd : firstNamed m f = some d)
    (hn : ¬ IsDots m) (hi : d.dIno = i) :
    (found (fun d => d.dName == m) f).countP (names i) = 1 := by
  have hm := (firstNamed_mem hd).2
  have hcount : names i d = true := names_iff.mpr ⟨hm ▸ hn,hi⟩
  rw [found_of_first hf hd, List.countP_singleton, if_pos hcount]

theorem total_clearTarget (hB : ∀ k, (v k).isDir = true → k ∈ B) (Q : ℕ) (m : Str)
    (hp : ∀ d, p Q d = true → d.dIno ≠ 0) :
    total B p (clearTarget v Q m) + (found (fun d => d.dName == m) (v Q)).countP (p Q) =
      total B p v := by
  unfold clearTarget
  split_ifs with hz
  · exact total_dropNamed (hB Q) m
  · have hnone : (found (fun d => d.dName == m) (v Q)).countP (p Q) = 0 := by
      refine List.countP_eq_zero.mpr (fun d hd hn => hz ?_)
      rw [found, Option.mem_toList] at hd
      by_cases hQ : (v Q).isDir = true
      · rw [held_of_dir hQ] at hd
        rw [nameIn, if_pos hQ, hd]
        exact hp d hn
      · rw [held_of_not_dir (by simpa using hQ)] at hd
        simp at hd
    omega

end Bbfs.Tally
