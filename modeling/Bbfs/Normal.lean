import Bbfs.DotEntries
import Bbfs.Tree

/-!
# Paths without dots

The normal form of a path drops its empty segments and `.` and lets `..` take
away the name before it. Where the dots are right, a path that resolves does
so as its normal form; where directories form a tree as well, normal forms
tell directories apart.
-/

set_option autoImplicit false

namespace Bbfs.Normal
open Bbfs.Strings Bbfs.Files Bbfs.Resolve Bbfs.Calls Bbfs.Session Bbfs.Walks Bbfs.Effects
open Bbfs.Numbers Bbfs.Directories Bbfs.DotEntries Bbfs.Tally Bbfs.Tree

variable {B : Finset ℕ} {v : View} {env : Env} {s : Fs}

def pushName (st : List Str) (it : Str) : List Str :=
  if it = [] ∨ it = dot then st
  else if it = dotdot then st.tail
  else it::st

def lexical (path : Str) : List Str := ((segments path).foldl pushName []).reverse

def absolute (names : List Str) : Str := (names.map (fun name => '/'::name)).flatten

theorem segments_append_absolute (names : List Str) (hn : ∀ w ∈ names, '/' ∉ w) {w : Str}
    (hw : '/' ∉ w) : segments (w++absolute names) = w::names := by
  induction names generalizing w with
  | nil =>
    rw [absolute, List.map_nil, List.flatten_nil, List.append_nil]
    exact segments_of_slash_free w hw
  | cons m names ih =>
    obtain ⟨hm,hs⟩ := List.forall_mem_cons.mp hn
    have happ : w++absolute (m::names) = w++ '/'::(m++absolute names) := rfl
    rw [happ, segments_append, segments_of_slash_free w hw, ih hs hm]
    rfl

theorem real_absolute (names : List Str) (hn : ∀ w ∈ names, '/' ∉ w) :
    real v (absolute names) = walk v 2 names := by
  have hsegs : segments (absolute names) = []::names :=
    segments_append_absolute names hn (w := []) List.not_mem_nil
  rw [real, hsegs, walk, if_pos rfl]

theorem pushName_subset (st : List Str) (it : Str) : pushName st it ⊆ it::st := by
  unfold pushName
  split_ifs
  · exact List.subset_cons_self it st
  · exact fun w hw => List.mem_cons_of_mem it (List.mem_of_mem_tail hw)
  · exact List.Subset.refl _

theorem foldl_pushName_subset (segs st : List Str) : segs.foldl pushName st ⊆ segs++st := by
  induction segs generalizing st with
  | nil => exact List.Subset.refl st
  | cons it segs ih =>
    intro w hw
    rcases List.mem_append.mp (ih (pushName st it) hw) with hs | hst
    · exact List.mem_append_left st (List.mem_cons_of_mem it hs)
    · rcases List.mem_cons.mp (pushName_subset st it hst) with rfl | hst
      · exact List.mem_cons_self
      · exact List.mem_append_right _ hst

theorem lexical_slash_free (path : Str) : ∀ w ∈ lexical path, '/' ∉ w := by
  intro w hw
  have hmem := foldl_pushName_subset (segments path) [] (List.mem_reverse.mp hw)
  rw [List.append_nil] at hmem
  exact segments_slash_free path w hmem

/-- Names by which a number is reached from the root, the last on top: none is
empty or a dot. -/
inductive Chain (v : View) : List Str → ℕ → Prop
  | root : Chain v [] 2
  | step {st : List Str} {name : Str} {x y : ℕ} (before : Chain v st x)
      (dir : (v x).isDir = true) (full : name ≠ []) (plain : ¬ IsDots name)
      (found : nameIn v name x = y) (there : y ≠ 0) : Chain v (name::st) y

theorem holds_of_nameIn {name : Str} {x : ℕ} (plain : ¬ IsDots name) (there : nameIn v name x ≠ 0) :
    ∃ d ∈ (v x).dentries, d.dName = name ∧ d.dIno = nameIn v name x ∧
      Holds v x (nameIn v name x) := by
  rcases nameIn_origin (v := v) name x with hz | ⟨hd,d,hm,hn,hi⟩
  · exact absurd hz there
  · exact ⟨d,hm,hn,hi,hd,d,hm,hn ▸ plain,hi⟩

theorem Chain.walk {st : List Str} {y : ℕ} (h : Chain v st y) (h0 : (v 0).isDir = false) :
    walk v 2 st.reverse = y := by
  induction h with
  | root => rfl
  | @step st name x y before dir full plain found there ih =>
    rw [List.reverse_cons, walk_append h0, ih, Resolve.walk, if_neg full, if_pos dir, found]
    rfl

theorem Chain.push {st : List Str} {k : ℕ} (h : Chain v st k) (hd : DotsRight v) (it : Str)
    (hr : Resolve.walk v k [it] ≠ 0) : Chain v (pushName st it) (Resolve.walk v k [it]) := by
  rw [Resolve.walk] at hr ⊢
  by_cases he : it = []
  · rw [if_pos he, pushName, if_pos (Or.inl he)]
    exact h
  rw [if_neg he] at hr ⊢
  by_cases hdir : (v k).isDir = true
  · rw [if_pos hdir] at hr ⊢
    change nameIn v it k ≠ 0 at hr
    change Chain v (pushName st it) (nameIn v it k)
    by_cases hdots : IsDots it
    · by_cases h2 : k = 2
      · -- at the root both dots lead nowhere, whatever holds it is the root
        subst h2
        have htail : Chain v st.tail 2 := by
          cases h with
          | root => exact Chain.root
          | step before dir full plain found there =>
            obtain ⟨d,-,-,-,hh⟩ := holds_of_nameIn plain (found ▸ there)
            rw [found] at hh
            rw [hd.heldRoot _ hh hdir] at before
            exact before
        rw [hd.nameIn_root hdir hdots]
        unfold pushName
        split_ifs with h1 h2
        · exact h
        · exact htail
        · exact absurd (hdots.resolve_left (fun hx => h1 (Or.inr hx))) h2
      · cases h with
        | root => exact absurd rfl h2
        | @step st name x _ before dir full plain found there =>
          obtain ⟨d,-,-,-,hh⟩ := holds_of_nameIn plain (found ▸ there)
          rw [found] at hh
          obtain ⟨hu,hu'⟩ := hd.held x k hh hdir h2
          rcases hdots with rfl | rfl
          · rw [nameIn_of_under hdir hu, pushName, if_pos (Or.inr rfl)]
            exact Chain.step before dir full plain found there
          · rw [nameIn_of_under hdir hu', pushName, if_neg (by decide), if_pos rfl]
            exact before
    · have hne : ¬ (it = [] ∨ it = dot) := by
        rintro (h1 | h1)
        · exact he h1
        · exact hdots (Or.inl h1)
      rw [pushName, if_neg hne, if_neg (fun h1 => hdots (Or.inr h1))]
      exact Chain.step h hdir he hdots rfl hr
  · rw [if_neg hdir] at hr
    exact absurd rfl hr

theorem Chain.walk_pushes {st : List Str} {k : ℕ} (h : Chain v st k) (hd : DotsRight v)
    (h0 : (v 0).isDir = false) (segs : List Str) (hr : Resolve.walk v k segs ≠ 0) :
    Chain v (segs.foldl pushName st) (Resolve.walk v k segs) := by
  induction segs generalizing st k with
  | nil => exact h
  | cons it segs ih =>
    have hsplit : Resolve.walk v k (it::segs) = Resolve.walk v (Resolve.walk v k [it]) segs :=
      walk_append h0 [it] segs k
    rw [hsplit] at hr ⊢
    refine ih (h.push hd it ?_) hr
    intro hz
    rw [hz, walk_zero h0] at hr
    exact hr rfl

theorem chain_lexical (hd : DotsRight v) (h0 : (v 0).isDir = false) {path : Str}
    (hr : real v path ≠ 0) : Chain v (lexical path).reverse (real v path) := by
  rw [lexical, List.reverse_reverse]
  exact Chain.root.walk_pushes hd h0 (segments path) hr

theorem real_lexical (hd : DotsRight v) (h0 : (v 0).isDir = false) {path : Str}
    (hr : real v path ≠ 0) : real v (absolute (lexical path)) = real v path := by
  have hwalk := (chain_lexical hd h0 hr).walk h0
  rw [List.reverse_reverse] at hwalk
  rw [real_absolute _ (lexical_slash_free path), hwalk]

theorem same_entry (h : OneName B v) (hB : ∀ k, (v k).isDir = true → k ∈ B) {x y : ℕ}
    (hx : (v x).isDir = true) (hy : (v y).isDir = true) {d e : Dirent}
    (hd : d ∈ (v x).dentries) (he : e ∈ (v x).dentries) (hdn : names y d = true)
    (hen : names y e = true) : d = e := by
  by_contra hne
  have hsub : [d,e] ⊆ (v x).dentries.filter (names y) := by
    intro a ha
    rcases List.mem_cons.mp ha with rfl | ha
    · exact List.mem_filter.mpr ⟨hd,hdn⟩
    · rw [List.mem_singleton.mp ha]
      exact List.mem_filter.mpr ⟨he,hen⟩
  have htwo := (List.subperm_of_subset (by simp [hne]) hsub).length_le
  have hone : tally (names y) (v x) ≤ total B (fun _ => names y) v :=
    Finset.single_le_sum (f := fun k => tally (names y) (v k)) (fun _ _ => Nat.zero_le _) (hB x hx)
  rw [tally, held_of_dir hx, List.countP_eq_length_filter] at hone
  have := h.once y hy
  simp only [List.length_cons, List.length_nil] at htwo
  omega

theorem Chain.not_root (h : OneName B v) (hB : ∀ k, (v k).isDir = true → k ∈ B) {st : List Str}
    (hc : Chain v st 2) (hd : (v 2).isDir = true) : st = [] := by
  cases hc with
  | root => rfl
  | step before dir full plain found there =>
    obtain ⟨d,-,-,-,hh⟩ := holds_of_nameIn plain (found ▸ there)
    rw [found] at hh
    have hpos := (total_pos hB).mpr ⟨_,hh⟩
    have := h.root hd
    omega

theorem Chain.unique (h : OneName B v) (hB : ∀ k, (v k).isDir = true → k ∈ B) {st st' : List Str}
    {y : ℕ} (hc : Chain v st y) (hc' : Chain v st' y) (hy : (v y).isDir = true) : st = st' := by
  induction hc generalizing st' with
  | root => exact (hc'.not_root h hB hy).symm
  | @step st name x y before dir full plain found there ih =>
    cases hc' with
    | root =>
      exact (Chain.step before dir full plain found there).not_root h hB hy
    | @step st' name' x' _ before' dir' full' plain' found' there' =>
      obtain ⟨d,hd,hdn,hdi,hh⟩ := holds_of_nameIn plain (found ▸ there)
      obtain ⟨e,he,hen,hei,hh'⟩ := holds_of_nameIn plain' (found' ▸ there')
      rw [found] at hh hdi
      rw [found'] at hh' hei
      obtain rfl := holds_unique (h.once y hy) hB hh hh'
      have hsame := same_entry h hB dir hy hd he (names_iff.mpr ⟨hdn ▸ plain,hdi⟩)
        (names_iff.mpr ⟨hen ▸ plain',hei⟩)
      rw [← hdn, ← hen, hsame, ih before' dir]

def keepsPlaces (l : Label) (s : Fs) : Prop := keepsDots l s ∧ keepsTree l s

instance (l : Label) (s : Fs) : Decidable (keepsPlaces l s) := inferInstanceAs (Decidable (_ ∧ _))

/-- Along a run that keeps the places, a path that resolves does so as its normal
form, and two paths that resolve lead to the same directory exactly if their
normal forms are the same. -/
theorem normal_forms_decide (h : Sessions env keepsPlaces s) :
    (∀ path, (findRealIno path s).1 ≠ 0 →
      findRealIno (absolute (lexical path)) s = findRealIno path s) ∧
    ∀ p q, (s.file (findRealIno p s).1).isDir = true → (findRealIno q s).1 ≠ 0 →
      ((findRealIno p s).1 = (findRealIno q s).1 ↔ lexical p = lexical q) := by
  have hd := sessions_dotsRight (h.mono (fun _ _ hc => hc.1))
  have hs := sessions_settled h
  have h0 := (untyped hs.sentinel).1
  simp only [findRealIno_eq]
  constructor
  · intro path hr
    rw [real_lexical hd h0 hr]
  · obtain ⟨B,hB⟩ : ∃ B : Finset ℕ, ∀ k, k < 2^31 → k ∈ B :=
      ⟨(Set.finite_Iio (2^31)).toFinset,fun k hk => (Set.Finite.mem_toFinset _).mpr hk⟩
    have hone := sessions_oneName (h.mono (fun _ _ hc => hc.2)) hB
    have hdir : ∀ k, (s.file k).isDir = true → k ∈ B :=
      fun k hk => hB k (Nat.lt_of_lt_of_le (hone.dirs.lt hs.toNumbers hk).2 hs.high)
    intro p q hp hq
    have hp0 : real s.file p ≠ 0 := (hone.dirs.lt hs.toNumbers hp).1
    constructor
    · intro he
      have hcp := chain_lexical hd h0 hp0
      have hcq := chain_lexical hd h0 hq
      rw [he] at hcp
      exact List.reverse_injective (hcp.unique hone hdir hcq (he ▸ hp))
    · intro he
      rw [← real_lexical hd h0 hp0, ← real_lexical hd h0 hq, he]

theorem normal_forms_decide_run :
    (findRealIno ['/','d','/','.','/','/','f','/','.','.','/','f'] (after
      [.mkdir ['/','d'] 0o755#32,.mkdir ['/','d','/','f'] 0o755#32])).1 =
      (findRealIno ['d','/','f','/'] (after
        [.mkdir ['/','d'] 0o755#32,.mkdir ['/','d','/','f'] 0o755#32])).1 := by
  have hkeeps : Sessions plainEnv keepsPlaces (after [.mkdir ['/','d'] 0o755#32,
      .mkdir ['/','d','/','f'] 0o755#32]) :=
    after_session (by decide +kernel) (by decide +kernel)
  exact ((normal_forms_decide hkeeps).2 _ _ (by decide +kernel) (by decide +kernel)).mpr
    (by decide)

end Bbfs.Normal
