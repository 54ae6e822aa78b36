import Bbfs.Listing
import Bbfs.Opens
import Bbfs.PathTree

/-!
# The tree of names

What the table of files stands for is a tree with a number and a type at every
node. A path is walked in this tree by its names alone: `.` stays, `..` drops
the last name. The entries `.` and `..` of the table, its link counts and its
handles are not in the tree.
-/

set_option autoImplicit false

namespace Bbfs.NameTree
open Bbfs.Strings Bbfs.Files Bbfs.Resolve Bbfs.Calls Bbfs.Session Bbfs.Walks Bbfs.Effects
open Bbfs.Numbers Bbfs.Directories Bbfs.DotEntries Bbfs.Tally Bbfs.Tree Bbfs.Names
open Bbfs.Placement Bbfs.Dangling Bbfs.Normal Bbfs.Quiet Bbfs.Opens Bbfs.Listing Bbfs.PathTree

abbrev Place := ℕ × Mode

abbrev PlaceTree := PathTree.Tree Str Place

variable {T : PlaceTree} {v w : View} {n k P y : ℕ} {ws us : List Str} {path name : Str}

def typeAt (T : PlaceTree) (ws : List Str) : Option Mode := (T.label ws).map Prod.snd

def enter (T : PlaceTree) (ws : List Str) (it : Str) : Option (List Str) :=
  if it = [] then some ws
  else if typeAt T ws ≠ some S_IFDIR then none
  else if it = dot then some ws
  else if it = dotdot then some ws.dropLast
  else if (T.label (ws++[it])).isSome then some (ws++[it])
  else none

def place (T : PlaceTree) (path : Str) : Option (List Str) := (segments path).foldlM (enter T) []

theorem place_parentPath (T : PlaceTree) (path : Str) :
    place T path = (place T (parentPath path)).bind (fun ws => enter T ws (tail path)) := by
  have hlast : place T path =
      ((segments path).dropLast.foldlM (enter T) []).bind (fun ws => enter T ws (tail path)) := by
    rw [place, segments_eq_append path, List.foldlM_append, List.dropLast_concat]
    simp
  rw [hlast, place]
  rcases segments_parentPath path with h | ⟨h,h'⟩
  · rw [h]
  · rw [h, h']
    rfl

theorem enter_plain (h0 : name ≠ []) (hn : ¬ IsDots name) :
    enter T ws name = if typeAt T ws = some S_IFDIR ∧ (T.label (ws++[name])).isSome = true
      then some (ws++[name]) else none := by
  rw [enter, if_neg h0]
  by_cases hd : typeAt T ws = some S_IFDIR
  · rw [if_neg (not_not.mpr hd), if_neg (fun h => hn (Or.inl h)), if_neg (fun h => hn (Or.inr h))]
    exact if_congr (by simp [hd]) rfl rfl
  · rw [if_pos hd, if_neg (fun h => hd h.1)]

/-- The tree, the next number, and how often a number is open. -/
structure Names where
  tree : PlaceTree
  next : ℕ
  opens : ℕ → ℕ

def Vacant (T : PlaceTree) (path : Str) : Prop :=
  (place T (parentPath path)).isSome = true ∧ place T path = none

instance (T : PlaceTree) (path : Str) : Decidable (Vacant T path) :=
  inferInstanceAs (Decidable (_ ∧ _))

def InDirectory (T : PlaceTree) (path : Str) : Prop :=
  (place T (parentPath path)).bind (typeAt T) = some S_IFDIR

instance (T : PlaceTree) (path : Str) : Decidable (InDirectory T path) :=
  inferInstanceAs (Decidable (_ = _))

/-- A node under a new name; where the parent is no directory there is none. -/
noncomputable def named (T : PlaceTree) (path : Str) (a : Place) : PlaceTree :=
  if InDirectory T path then
    T.grow ((place T (parentPath path)).getD []++[tail path]) a
  else T

open Classical in
/-- The return value and the next tree of a call on names, an open or a close that
is admitted. A number is spent before the path is looked at. The other calls leave
the tree. -/
noncomputable def act (N : Names) : Call → ℤ × Names
  | .mkdir path _ =>
    if Vacant N.tree path then
      (ok, { N with tree := named N.tree path (N.next,S_IFDIR), next := N.next+1 })
    else (anErr, { N with next := N.next+1 })
  | .creat path _ =>
    if IsDots (tail path) then (anErr, N)
    else if Vacant N.tree path then
      (ok, { N with tree := named N.tree path (N.next,S_IFREG), next := N.next+1 })
    else (anErr, { N with next := N.next+1 })
  | .symlink _ path =>
    if IsDots (tail path) ∨ (place N.tree path).isSome then (anErr, N)
    else if InDirectory N.tree path then
      (ok, { N with tree := named N.tree path (N.next,S_IFLNK), next := N.next+1 })
    else (anErr, { N with next := N.next+1 })
  | .link path newpath =>
    match (place N.tree path).bind N.tree.label with
    | some a =>
      if a.2 = S_IFREG ∧ Vacant N.tree newpath then
        (ok, { N with tree := named N.tree newpath a })
      else (anErr, N)
    | none => (anErr, N)
  | .unlink path =>
    match place N.tree path with
    | some ws =>
      if IsDots (tail path) then (anErr, N) else (ok, { N with tree := N.tree.cut ws })
    | none => (anErr, N)
  | .rmdir path =>
    match place N.tree path with
    | some ws =>
      if typeAt N.tree ws = some S_IFDIR ∧ ∀ w, N.tree.label (ws++[w]) = none then
        (ok, { N with tree := N.tree.cut ws })
      else (anErr, N)
    | none => (anErr, N)
  | .rename path newpath =>
    if IsDots (tail path) then (anErr, N) else
    match place N.tree path, place N.tree (parentPath newpath) with
    | some ws, some us => (ok, { N with tree := N.tree.move ws (us++[tail newpath]) })
    | _, _ => (ok, N)
  | .openFile path _ =>
    match (place N.tree path).bind N.tree.label with
    | some a => (a.1, { N with opens := Function.update N.opens a.1 (N.opens a.1+1) })
    | none => (anErr, N)
  | .close fh => (ok, { N with opens := Function.update N.opens fh (N.opens fh-1) })
  | _ => (anErr, N)

def Direct (T : PlaceTree) (path : Str) : Prop :=
  (place T path).bind (typeAt T) ≠ some S_IFLNK

instance (T : PlaceTree) (path : Str) : Decidable (Direct T path) :=
  inferInstanceAs (Decidable (_ ≠ _))

/-- Calls on names, by paths that do not end at links, and calls that leave the
names alone. What is removed or moved is given by its name, without a slash after
it. What is renamed is there and goes into a directory, a directory into the one it
is in. A new mode has the old type, or none for a directory. -/
def Allowed (T : PlaceTree) : Call → Prop
  | .mkdir path mode | .creat path mode =>
    typeBits mode = 0 ∧ Direct T (parentPath path) ∧ Direct T path
  | .symlink _ path => Direct T (parentPath path) ∧ Direct T path
  | .link path newpath => Direct T path ∧ Direct T (parentPath newpath) ∧ Direct T newpath
  | .unlink path => Direct T path ∧ tail path ≠ []
  | .rmdir path => Direct T path ∧ tail path ≠ [] ∧ ¬ IsDots (tail path)
  | .rename path newpath => ¬ IsDots (tail path) →
    Direct T path ∧ tail path ≠ [] ∧ tail newpath ≠ [] ∧ ¬ IsDots (tail newpath) ∧
      ∃ ws us, place T path = some ws ∧ place T (parentPath newpath) = some us ∧
        typeAt T us = some S_IFDIR ∧ (typeAt T ws = some S_IFDIR → us = ws.dropLast)
  | .chmod path mode => Direct T path ∧ ∀ ws, place T path = some ws →
    typeAt T ws = some (typeBits mode) ∨ typeAt T ws = some S_IFDIR ∧ typeBits mode = 0
  | c => quiet c = true

def AllowedOpen (N : Names) : Call → Prop
  | .openFile path _ => Direct N.tree path ∧ ∃ a, (place N.tree path).bind N.tree.label = some a ∧
    a.2 ≠ S_IFDIR
  | .close fh => 0 < N.opens fh
  | _ => False

def Admitted (N : Names) (c : Call) : Prop := Allowed N.tree c ∨ AllowedOpen N c

def child (v : View) (k : ℕ) (name : Str) : Option ℕ :=
  if name ≠ [] ∧ ¬ IsDots name ∧ nameIn v name k ≠ 0 then some (nameIn v name k) else none

def labelAt (v : View) (ws : List Str) : Option Place :=
  (PathTree.find 2 (child v) ws).map (fun k => (k,typeBits (v k).metadata.stMode))

theorem child_some : child v k name = some y ↔
    name ≠ [] ∧ ¬ IsDots name ∧ nameIn v name k = y ∧ y ≠ 0 := by
  unfold child
  constructor
  · intro h
    split_ifs at h with hc
    obtain rfl := Option.some.inj h
    exact ⟨hc.1,hc.2.1,rfl,hc.2.2⟩
  · rintro ⟨h0,hn,rfl,hy⟩
    exact if_pos ⟨h0,hn,hy⟩

theorem child_not_dir (h : (v k).isDir = false) (name : Str) : child v k name = none :=
  if_neg (fun hc => hc.2.2 (by rw [nameIn, h]; rfl))

theorem isDir_of_child (h : child v k name = some y) : (v k).isDir = true := by
  by_contra hd
  rw [child_not_dir (by simpa using hd)] at h
  exact nomatch h

theorem chain_find {st : List Str} :
    Chain v st k ↔ PathTree.find 2 (child v) st.reverse = some k := by
  constructor
  · intro h
    induction h with
    | root => rfl
    | step before dir full plain found there ih =>
      rw [List.reverse_cons, find_concat, ih, Option.bind_some, child_some]
      exact ⟨full,plain,found,there⟩
  · intro h
    induction st generalizing k with
    | nil =>
      obtain rfl := Option.some.inj h
      exact Chain.root
    | cons name st ih =>
      rw [List.reverse_cons, find_concat] at h
      obtain ⟨x,hx,hy⟩ := Option.bind_eq_some_iff.mp h
      obtain ⟨full,plain,found,there⟩ := child_some.mp hy
      exact Chain.step (ih hx) (isDir_of_child hy) full plain found there

theorem chain_of_find (h : PathTree.find 2 (child v) ws = some k) : Chain v ws.reverse k := by
  rw [chain_find, List.reverse_reverse]
  exact h

theorem Chain.reached {st : List Str} (h : Chain v st k) : Reached v k := by
  induction h with
  | root => exact Reached.root
  | step before dir full plain found there ih =>
    obtain ⟨d,-,-,-,hh⟩ := holds_of_nameIn plain (found ▸ there)
    exact Reached.child ih (found ▸ hh)

structure Orderly (v : View) (n : ℕ) : Prop where
  numbers : Numbers v n
  fresh : Fresh v n
  high : n ≤ 2^31
  dots : DotsRight v
  named : Tree.Named v
  distinct : UniqueNames v
  made : ∀ x, Reached v x → (v x).isDir = true → ∀ d ∈ (v x).dentries, Made v d.dIno
  single : ∀ x y, (v x).isDir = true → (v y).isDir = true → ∀ d ∈ (v x).dentries,
    ∀ e ∈ (v x).dentries, ¬ IsDots d.dName → ¬ IsDots e.dName → d.dIno = y → e.dIno = y → d = e
  younger : ∀ x, (v x).isDir = true → ∀ d ∈ (v x).dentries, ¬ IsDots d.dName →
    (v d.dIno).isDir = true → d.dIno ≠ 2 ∧ x < d.dIno
  unique : ∀ st st' y, (v y).isDir = true → Chain v st y → Chain v st' y → st = st'

theorem Orderly.zero (h : Orderly v n) : (v 0).isDir = false ∧ (v 0).isLnk = false :=
  ⟨(untyped h.numbers.sentinel).1,(untyped h.numbers.sentinel).2.2⟩

theorem Orderly.find_iff (h : Orderly v n) (hk : PathTree.find 2 (child v) ws = some k)
    (hd : (v k).isDir = true) (us : List Str) :
    PathTree.find 2 (child v) us = some k ↔ us = ws := by
  constructor
  · intro hu
    exact List.reverse_injective (h.unique _ _ k hd (chain_of_find hu) (chain_of_find hk))
  · rintro rfl
    exact hk

theorem orderly_of_standing {B : Finset ℕ} (h : Standing B v) (hs : Numbers v n) (hf : Fresh v n)
    (hb : n ≤ 2^31) (hB : ∀ k, k < 2^31 → k ∈ B) : Orderly v n := by
  have hdir : ∀ k, (v k).isDir = true → k ∈ B :=
    fun k hk => hB k (Nat.lt_of_lt_of_le (h.one.dirs.lt hs hk).2 hb)
  refine ⟨hs,hf,hb,h.dots,h.one.named,h.distinct,?_,?_,?_,?_⟩
  · exact fun x hx hd => h.sound.made x (h.sound.placed (visible_of_reached hx) hd)
  · intro x y hx hy d hd e he hdn hen hdy hey
    exact same_entry h.one hdir hx hy hd he (names_iff.mpr ⟨hdn,hdy⟩) (names_iff.mpr ⟨hen,hey⟩)
  · intro x hx d hm hn hd
    have h2 : d.dIno ≠ 2 := by
      intro h2
      have hpos := (total_pos hdir).mpr ⟨x,hx,d,hm,hn,h2⟩
      have := h.one.root (h2 ▸ hd)
      omega
    exact ⟨h2,Nat.lt_of_not_le (fun hle => hn (h.sound.back x hx d hm hd h2 hle))⟩
  · exact fun st st' y hy hc hc' => hc.unique h.one hdir hc' hy

theorem label_find (h : PathTree.find 2 (child v) ws = some k) :
    labelAt v ws = some (k,typeBits (v k).metadata.stMode) := by
  rw [labelAt, h, Option.map_some]

theorem typeAt_dir (hT : ∀ ws, T.label ws = labelAt v ws)
    (h : PathTree.find 2 (child v) ws = some k) :
    typeAt T ws = some S_IFDIR ↔ (v k).isDir = true := by
  rw [typeAt, hT, label_find h, File.isDir, S_ISDIR_eq, beq_iff_eq]
  exact Option.some_inj

theorem enter_walk (hv : Orderly v n) (hT : ∀ ws, T.label ws = labelAt v ws)
    (h : Chain v ws.reverse k) (hk : k ≠ 0) (it : Str) :
    enter T ws it = if walk v k [it] = 0 then none else some (pushName ws.reverse it).reverse := by
  have hfind : PathTree.find 2 (child v) ws = some k := by
    rw [chain_find, List.reverse_reverse] at h
    exact h
  rw [enter, pushName, Resolve.walk]
  by_cases h0 : it = []
  · rw [if_pos h0, if_pos h0, if_pos (Or.inl h0), List.reverse_reverse]
    exact (if_neg hk).symm
  rw [if_neg h0, if_neg h0]
  by_cases hd : (v k).isDir = true
  · rw [if_pos hd, if_neg (not_not.mpr ((typeAt_dir hT hfind).mpr hd))]
    change _ = if nameIn v it k = 0 then none else _
    by_cases hdots : IsDots it
    · -- the dots of a directory that is found lead somewhere
      have hsome : nameIn v it k ≠ 0 := by
        by_cases h2 : k = 2
        · subst h2
          rw [hv.dots.nameIn_root hd hdots]
          exact two_ne_zero
        · obtain ⟨d,e,h1,h1'⟩ := hv.dots.has_dots (Chain.reached h) hd
          have hmade := hv.made k (Chain.reached h) hd
          rcases hdots with rfl | rfl
          · rw [nameIn_eq, if_pos hd, h1]
            exact (hmade d (firstNamed_mem h1).1).1
          · rw [nameIn_eq, if_pos hd, h1']
            exact (hmade e (firstNamed_mem h1').1).1
      rw [if_neg hsome]
      by_cases h1 : it = dot
      · rw [if_pos h1, if_pos (Or.inr h1), List.reverse_reverse]
      · have h2 : it = dotdot := hdots.resolve_left h1
        rw [if_neg h1, if_pos h2, if_neg (not_or_intro h0 h1), if_pos h2, List.tail_reverse,
          List.reverse_reverse]
    · have h1 : it ≠ dot := fun h1 => hdots (Or.inl h1)
      have h2 : it ≠ dotdot := fun h2 => hdots (Or.inr h2)
      rw [if_neg h1, if_neg h2, if_neg (not_or_intro h0 h1), if_neg h2, List.reverse_cons,
        List.reverse_reverse, hT, labelAt, find_concat, hfind, Option.bind_some, Option.isSome_map]
      by_cases hz : nameIn v it k = 0
      · have hnone : child v k it = none := if_neg (fun hc => hc.2.2 hz)
        rw [if_pos hz, hnone]
        rfl
      · have hsome : child v k it = some (nameIn v it k) := if_pos ⟨h0,hdots,hz⟩
        rw [if_neg hz, hsome]
        rfl
  · rw [if_neg hd, if_pos (fun he => hd ((typeAt_dir hT hfind).mp he)), if_pos rfl]

theorem foldlM_walk (hv : Orderly v n) (hT : ∀ ws, T.label ws = labelAt v ws) (segs : List Str)
    (h : Chain v ws.reverse k) (hk : k ≠ 0) :
    segs.foldlM (enter T) ws =
      if walk v k segs = 0 then none else some (segs.foldl pushName ws.reverse).reverse := by
  induction segs generalizing ws k with
  | nil =>
    rw [Resolve.walk, if_neg hk, List.foldl_nil, List.reverse_reverse]
    rfl
  | cons it segs ih =>
    have hsplit : walk v k (it::segs) = walk v (walk v k [it]) segs :=
      walk_append hv.zero.1 [it] segs k
    rw [List.foldlM_cons, enter_walk hv hT h hk, hsplit, List.foldl_cons]
    by_cases hz : walk v k [it] = 0
    · rw [if_pos hz, hz, walk_zero hv.zero.1, if_pos rfl]
      rfl
    · have hpush := h.push hv.dots it hz
      rw [if_neg hz]
      change segs.foldlM (enter T) (pushName ws.reverse it).reverse = _
      rw [ih (by rw [List.reverse_reverse]; exact hpush) hz, List.reverse_reverse]

/-- A path leads to its normal form, if it leads anywhere. -/
theorem place_real (hv : Orderly v n) (hT : ∀ ws, T.label ws = labelAt v ws) (path : Str) :
    place T path = if real v path = 0 then none else some (lexical path) := by
  have hroot : Chain v ([]:List Str).reverse 2 := Chain.root
  exact foldlM_walk hv hT (segments path) hroot two_ne_zero

theorem place_none (hv : Orderly v n) (hT : ∀ ws, T.label ws = labelAt v ws) :
    place T path = none ↔ real v path = 0 := by
  rw [place_real hv hT]
  split_ifs with h
  · exact iff_of_true rfl h
  · exact iff_of_false nofun h

theorem place_some (hv : Orderly v n) (hT : ∀ ws, T.label ws = labelAt v ws)
    (h : place T path = some ws) :
    real v path ≠ 0 ∧ PathTree.find 2 (child v) ws = some (real v path) := by
  rw [place_real hv hT] at h
  split_ifs at h with h0
  obtain rfl := Option.some.inj h
  have hchain := chain_find.mp (chain_lexical hv.dots hv.zero.1 h0)
  rw [List.reverse_reverse] at hchain
  exact ⟨h0,hchain⟩

theorem exists_place (hv : Orderly v n) (hT : ∀ ws, T.label ws = labelAt v ws)
    (h : real v path ≠ 0) : ∃ ws, place T path = some ws :=
  ⟨lexical path,by rw [place_real hv hT, if_neg h]⟩

theorem label_congr (hf : PathTree.find 2 (child w) ws = PathTree.find 2 (child v) us)
    (ht : ∀ k, PathTree.find 2 (child v) us = some k →
      typeBits (w k).metadata.stMode = typeBits (v k).metadata.stMode) :
    labelAt w ws = labelAt v us := by
  rw [labelAt, labelAt, hf]
  cases h : PathTree.find 2 (child v) us with
  | none => rfl
  | some k => rw [Option.map_some, Option.map_some, ht k h]

theorem reached_of_find (h : PathTree.find 2 (child v) ws = some k) : Reached v k :=
  Chain.reached (chain_of_find h)

theorem label_frame (h : ∀ k, Reached v k → child w k = child v k ∧
    typeBits (w k).metadata.stMode = typeBits (v k).metadata.stMode) (ws : List Str) :
    labelAt w ws = labelAt v ws :=
  label_congr (find_congr (fun _ k hk => (h k (reached_of_find hk)).1) ws)
    (fun k hk => (h k (reached_of_find hk)).2)

theorem child_congr (hd : (w k).isDir = (v k).isDir) {u : Str}
    (hu : under u (w k) = under u (v k)) : child w k u = child v k u := by
  rw [child, child, nameIn_under, nameIn_under, hd, hu]

theorem Orderly.next_unreached (hv : Orderly v n) : ¬ Reached v n := by
  intro h
  cases h with
  | root => exact hv.fresh.ne_root rfl
  | child before holds =>
    obtain ⟨-,d,hm,-,hi⟩ := holds
    exact hv.fresh.unnamed _ d hm hi

theorem Orderly.next_childless (hv : Orderly v n) (u : Str) : child v n u = none :=
  child_not_dir (untyped (hv.numbers.spare n le_rfl hv.fresh.ne_err).2).1 u

theorem Orderly.free (hv : Orderly v n) (hP : Reached v P) (hd : (v P).isDir = true)
    (h0 : name ≠ []) (hn : ¬ IsDots name) (hfree : child v P name = none) :
    under name (v P) = [] := by
  have hz : nameIn v name P = 0 := by
    by_contra hne
    exact absurd hfree (by rw [child, if_pos ⟨h0,hn,hne⟩]; exact nofun)
  rw [nameIn_eq, if_pos hd] at hz
  cases hf : firstNamed name (v P) with
  | some d =>
    rw [hf] at hz
    exact absurd hz (hv.made P hP hd d (firstNamed_mem hf).1).1
  | none =>
    rw [under, List.map_eq_nil_iff, List.filter_eq_nil_iff]
    exact List.find?_eq_none.mp hf

end Bbfs.NameTree
