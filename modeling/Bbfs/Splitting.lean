import Bbfs.Bytes
import Bbfs.FuseBytes

/-!
# Splitting and joining with `int` indices

Both programs split with two `int` indices made from positions of type `size_t`,
and `join` counts with an `int` as well. Up to the range of `int` this is the
splitting by offsets; past it a position that is found may be read as a missing
one, or as a place further to the left. A thrown exception, a position outside a
vector or an `int` that overflows gives no result.
-/

set_option autoImplicit false

namespace Bbfs.Splitting
open Bbfs.Strings Bbfs.Files Bbfs.Resolve Bbfs.Contents Bbfs.Bytes Bbfs.FuseBytes

variable {s pat : Str} {v : List Str} {keep : Str → Bool} {fuel i t : ℕ}

/-- `s.find(pat, i)`; a negative `int` is a position past every string. -/
def findFrom (s pat : Str) (i : ℤ) : Option ℕ :=
  if i < 0 ∨ s.length < i then none else (find pat (s.drop i.toNat)).map (i.toNat+·)

/-- The `int` that the position is assigned to; `npos` is −1. -/
def narrowed : Option ℕ → ℤ
  | none => -1
  | some p => toInt32 p

/-- `s.substr(i, n)`; a negative count is a huge `size_t`. -/
def substr (s : Str) (i n : ℤ) : Option Str :=
  if i < 0 ∨ s.length < i then none
  else some (if n < 0 then s.drop i.toNat else (s.drop i.toNat).take n.toNat)

/-- The loop of both programs, which differ in the pieces they keep. The number
bounds the iterations. -/
def splitLoop (keep : Str → Bool) (s pat : Str) : ℕ → ℤ → Option (List Str)
  | 0, _ => none
  | fuel+1, i =>
    let t := narrowed (findFrom s pat i)
    let j := if t = -1 then toInt32 s.length else t
    if ¬IsInt (j-i) then none else
      match substr s i (j-i) with
      | none => none
      | some c =>
        let push (v : List Str) := if keep c then c::v else v
        if t = -1 then some (push [])
        else (splitLoop keep s pat fuel (toInt32 (j+pat.length))).map push

def split (s pat : Str) (fuel : ℕ) : Option (List Str) :=
  splitLoop (fun _ => true) s pat fuel 0

def fuseSplit (s pat : Str) (fuel : ℕ) : Option (List Str) :=
  splitLoop (fun c => !c.isEmpty) s pat fuel 0

def Returns (call : ℕ → Option (List Str)) (v : List Str) : Prop := ∃ fuel, call fuel = some v

def joinLoop (v : List Str) (pat : Str) : ℕ → ℤ → Str → Option Str
  | 0, _, s => some s
  | n+1, i, s =>
    match if i < 0 then none else v[i.toNat]? with
    | none => none
    | some w => if IsInt (i+1) then joinLoop v pat n (i+1) (s++(pat++w)) else none

def join (v : List Str) (pat : Str) (start stop : ℤ) : Option Str :=
  let stop := if stop < 0 then toInt32 (stop+v.length) else stop
  if toU64 start ≥ v.length then some [] else
    match v[toU64 start]? with
    | none => none
    | some s => if IsInt (start+1) then joinLoop v pat (stop-start).toNat (start+1) s else none

theorem splitLoop_succ {i : ℤ} (h : splitLoop keep s pat fuel i = some v) :
    splitLoop keep s pat (fuel+1) i = some v := by
  induction fuel generalizing i v with
  | zero => simp [splitLoop] at h
  | succ fuel ih =>
    rw [splitLoop] at h ⊢
    simp only at h ⊢
    by_cases ht : narrowed (findFrom s pat i) = -1
    · simpa only [if_pos ht] using h
    · simp only [if_neg ht] at h ⊢
      split_ifs at h ⊢
      split at h
      · simp at h
      · obtain ⟨w,hw,rfl⟩ := Option.map_eq_some_iff.mp h
        rw [ih hw]
        rfl

theorem splitLoop_le {i : ℤ} {n : ℕ} (h : splitLoop keep s pat fuel i = some v)
    (hn : fuel ≤ n) : splitLoop keep s pat n i = some v := by
  induction n, hn using Nat.le_induction with
  | base => exact h
  | succ n _ ih => exact splitLoop_succ ih

theorem splitLoop_filter (i : ℤ) : splitLoop keep s pat fuel i =
    (splitLoop (fun _ => true) s pat fuel i).map (List.filter keep) := by
  induction fuel generalizing i with
  | zero => rfl
  | succ fuel ih =>
    rw [splitLoop, splitLoop]
    simp only [if_true]
    by_cases ht : narrowed (findFrom s pat i) = -1
    · simp only [if_pos ht]
      split_ifs
      · cases substr s i (toInt32 s.length-i) with
        | none => rfl
        | some c => cases hc : keep c <;> simp [hc]
      · rfl
    · simp only [if_neg ht]
      split_ifs
      · cases substr s i (narrowed (findFrom s pat i)-i) with
        | none => rfl
        | some c =>
          simp only [ih, Option.map_map]
          congr 1
          funext v
          cases hc : keep c <;> simp [hc]
      · rfl

theorem splitLoop_neg {i : ℤ} (hi : i < 0) : splitLoop keep s pat fuel i = none := by
  cases fuel with
  | zero => rfl
  | succ fuel => simp [splitLoop, substr, hi]

def piece (s : Str) (i : ℕ) (j : ℤ) : Str :=
  if j < i then s.drop i else (s.drop i).take (j-i).toNat

theorem substr_eq (hi : i ≤ s.length) (j : ℤ) : substr s i (j-i) = some (piece s i j) := by
  have hn : j-i < 0 ↔ j < i := by omega
  rw [substr, piece, if_neg (by omega), Int.toNat_natCast]
  simp only [hn]

theorem findFrom_eq (hi : i ≤ s.length) :
    findFrom s pat i = (find pat (s.drop i)).map (i+·) := by
  rw [findFrom, if_neg (by omega), Int.toNat_natCast]

theorem splitLoop_last (hi : i ≤ s.length) (h : find pat (s.drop i) = none) :
    splitLoop (fun _ => true) s pat (fuel+1) i =
      if IsInt (toInt32 s.length-i) then some [piece s i (toInt32 s.length)] else none := by
  have ht : narrowed (findFrom s pat i) = -1 := by rw [findFrom_eq hi, h]; rfl
  rw [splitLoop]
  simp only [ht, if_true, substr_eq hi]
  split_ifs <;> rfl

theorem splitLoop_next (hi : i ≤ s.length) (h : find pat (s.drop i) = some t)
    (ht : i+t < 2^31) :
    splitLoop (fun _ => true) s pat (fuel+1) i =
      (splitLoop (fun _ => true) s pat fuel (toInt32 ((i+t+pat.length : ℕ)))).map
        ((s.drop i).take t::·) := by
  have hp : narrowed (findFrom s pat i) = (i+t : ℕ) := by
    rw [findFrom_eq hi, h]
    exact toInt32_natCast ht
  have hint : IsInt (((i+t : ℕ):ℤ)-i) := by rw [IsInt]; omega
  have hpiece : piece s i (i+t : ℕ) = (s.drop i).take t := by
    rw [piece, if_neg (by omega)]
    congr 1
    omega
  have hne : ((i+t : ℕ):ℤ) ≠ -1 := by omega
  rw [splitLoop]
  simp only [hp, if_neg hne, substr_eq hi, hpiece, not_not.mpr hint, if_false, if_true]
  norm_cast

theorem find_isPrefix {rest : Str} (h : find pat rest = some t) :
    t ≤ rest.length ∧ pat <+: rest.drop t := by
  induction rest generalizing t with
  | nil =>
    rw [find] at h
    split_ifs at h with hp
    cases h
    exact ⟨le_rfl,List.isPrefixOf_iff_prefix.mp hp⟩
  | cons c cs ih =>
    rw [find] at h
    split_ifs at h with hp
    · cases h
      exact ⟨Nat.zero_le _,List.isPrefixOf_iff_prefix.mp hp⟩
    · obtain ⟨u,hu,rfl⟩ := Option.map_eq_some_iff.mp h
      exact ⟨Nat.succ_le_succ (ih hu).1,(ih hu).2⟩

theorem find_parts {rest : Str} (h : find pat rest = some t) :
    rest = rest.take t++(pat++rest.drop (t+pat.length)) := by
  have hp := List.prefix_iff_eq_append.mp (find_isPrefix h).2
  rw [List.drop_drop] at hp
  rw [hp, List.take_append_drop]

theorem find_le {rest : Str} (h : find pat rest = some t) : t+pat.length ≤ rest.length := by
  have hlen := (find_isPrefix h).2.length_le
  have ht := (find_isPrefix h).1
  rw [List.length_drop] at hlen
  omega

/-- Below 2^31 the `int` indices are the offsets. -/
theorem splitLoop_eq (hs : s.length < 2^31) (hi : i ≤ s.length) :
    splitLoop (fun _ => true) s pat fuel i = Strings.splitLoop pat fuel (s.drop i) := by
  induction fuel generalizing i with
  | zero => rfl
  | succ fuel ih =>
    rw [Strings.splitLoop]
    cases h : find pat (s.drop i) with
    | none =>
      have hint : IsInt ((s.length:ℤ)-i) := by rw [IsInt]; omega
      have hpiece : piece s i s.length = s.drop i := by
        rw [piece, if_neg (by omega)]
        exact List.take_of_length_le (by rw [List.length_drop]; omega)
      rw [splitLoop_last hi h, toInt32_natCast hs, if_pos hint, hpiece]
    | some t =>
      have hle := find_le h
      rw [List.length_drop] at hle
      rw [splitLoop_next hi h (by omega), toInt32_natCast (by omega), ih (by omega)]
      simp only [List.drop_drop, Nat.add_assoc]

theorem splitLoop_join {rest : Str} (hp : pat ≠ []) (hf : rest.length < fuel) :
    ∃ v, Strings.splitLoop pat fuel rest = some v ∧ v ≠ [] ∧ pat.intercalate v = rest := by
  induction fuel generalizing rest with
  | zero => omega
  | succ fuel ih =>
    rw [Strings.splitLoop]
    cases h : find pat rest with
    | none => exact ⟨[rest],rfl,by simp,by simp⟩
    | some t =>
      have hpos := List.length_pos_iff.mpr hp
      have hle := find_le h
      have hlt : (rest.drop (t+pat.length)).length < fuel := by rw [List.length_drop]; omega
      obtain ⟨v,hv,hne,hjoin⟩ := ih hlt
      refine ⟨rest.take t::v,by simp only [hv]; rfl,by simp,?_⟩
      rw [List.intercalate_cons_of_ne_nil hne, hjoin, List.append_assoc]
      exact (find_parts h).symm

theorem returns_unique {i : ℤ} {w : List Str}
    (hv : Returns (fun fuel => splitLoop keep s pat fuel i) v)
    (hw : Returns (fun fuel => splitLoop keep s pat fuel i) w) : v = w := by
  obtain ⟨m,hm⟩ := hv
  obtain ⟨n,hn⟩ := hw
  have hmax := splitLoop_le hm (Nat.le_max_left m n)
  rw [splitLoop_le hn (Nat.le_max_right m n)] at hmax
  exact (Option.some.inj hmax).symm

theorem split_eq (hs : s.length < 2^31) : split s pat fuel = Strings.splitLoop pat fuel s :=
  splitLoop_eq hs (Nat.zero_le _)

theorem split_iff (hp : pat ≠ []) (hs : s.length < 2^31) :
    Returns (split s pat) v ↔ Strings.split s pat = some v := by
  obtain ⟨w,hw,-,-⟩ := splitLoop_join hp (Nat.lt_succ_self s.length)
  have hret : Returns (split s pat) w := ⟨s.length+1,(split_eq hs).trans hw⟩
  rw [Strings.split, hw]
  constructor
  · intro h
    rw [returns_unique h hret]
  · intro h
    rw [← Option.some.inj h]
    exact hret

theorem fuseSplit_iff {v' : List Str} : Returns (fuseSplit s pat) v' ↔
    ∃ v, Returns (split s pat) v ∧ v' = v.filter (fun c => !c.isEmpty) := by
  constructor
  · rintro ⟨fuel,h⟩
    rw [fuseSplit, splitLoop_filter] at h
    obtain ⟨v,hv,rfl⟩ := Option.map_eq_some_iff.mp h
    exact ⟨v,⟨fuel,hv⟩,rfl⟩
  · rintro ⟨v,⟨fuel,h⟩,rfl⟩
    have hv : splitLoop (fun _ => true) s pat fuel 0 = some v := h
    exact ⟨fuel,by rw [fuseSplit, splitLoop_filter, hv]; rfl⟩

theorem fuseSplit_calls (hp : pat ≠ []) (hs : s.length < 2^31) :
    Returns (fuseSplit s pat) v ↔ FuseCalls.split s pat = some v := by
  rw [fuseSplit_iff, FuseCalls.split, FuseTable.splitLoop_eq, Option.map_eq_some_iff]
  simp only [split_iff hp hs, Strings.split, eq_comm]

theorem joinLoop_eq (n : ℕ) (w : Str) (hv : i+n ≤ v.length) (hi : i+n < 2^31) :
    joinLoop v pat n i w = some (w++(((v.drop i).take n).map (pat++·)).flatten) := by
  induction n generalizing i w with
  | zero => simp [joinLoop]
  | succ n ih =>
    have hlt : i < v.length := by omega
    have hint : IsInt ((i:ℤ)+1) := by rw [IsInt]; omega
    have hnext := ih (i := i+1) (w++(pat++v[i])) (by omega) (by omega)
    push_cast at hnext
    rw [joinLoop, if_neg (by omega), Int.toNat_natCast, List.getElem?_eq_getElem hlt]
    simp only
    rw [if_pos hint, hnext, List.drop_eq_getElem_cons hlt]
    simp only [List.take_succ_cons, List.map_cons, List.flatten_cons, List.append_assoc]

theorem joinLoop_overflow (n : ℕ) (w : Str) (hn : i+(n+1) = 2^31) :
    joinLoop v pat (n+1) i w = none := by
  induction n generalizing i w with
  | zero =>
    have hint : ¬IsInt ((i:ℤ)+1) := by rw [IsInt]; omega
    rw [joinLoop]
    split
    · rfl
    · rw [if_neg hint]
  | succ n ih =>
    rw [joinLoop]
    split
    · rfl
    · split_ifs
      · have hnext (w : Str) := ih (i := i+1) w (by omega)
        push_cast at hnext
        exact hnext _
      · rfl

theorem join_eq (hv : v ≠ []) : join v pat 0 (-1) =
    if toInt32 ((v.length:ℤ)-1) = 2^31-1 then none
    else some (pat.intercalate (v.take ((toInt32 ((v.length:ℤ)-1)).toNat+1))) := by
  obtain ⟨w,ws,rfl⟩ := List.exists_cons_of_ne_nil hv
  have hlen : ((w::ws).length:ℤ)-1 = ws.length := by rw [List.length_cons]; omega
  have hstop : (-1:ℤ)+((w::ws).length:ℤ) = ws.length := by rw [List.length_cons]; omega
  have hrange := toInt32_range ws.length
  have hle := toInt32_le ws.length
  have hone : IsInt (0+1) := by decide
  rw [hlen, join, hstop]
  simp only [show (-1:ℤ) < 0 by decide, if_true, toU64_zero, List.length_cons,
    List.getElem?_cons_zero]
  rw [if_neg (by omega), if_pos hone, sub_zero, zero_add]
  split_ifs with hmax
  · obtain ⟨n,hn⟩ : ∃ n, (toInt32 ws.length).toNat = n+1 :=
      Nat.exists_eq_succ_of_ne_zero (by omega)
    rw [hn]
    exact joinLoop_overflow (i := 1) n w (by omega)
  · have hloop : joinLoop (w::ws) pat (toInt32 ws.length).toNat (1:ℕ) w = _ :=
      joinLoop_eq _ w (by rw [List.length_cons]; omega) (by omega)
    rw [Nat.cast_one] at hloop
    rw [hloop, List.drop_one, List.tail_cons, List.take_succ_cons, intercalate_cons]

theorem join_eq_paths (hv : v.length < 2^31) :
    join v pat 0 (-1) = some (Strings.join v pat 0 (-1)) := by
  rw [join_default]
  by_cases hne : v = []
  · rw [hne]
    rfl
  · have hpos := List.length_pos_iff.mpr hne
    have hlast : toInt32 ((v.length:ℤ)-1) = (v.length-1 : ℕ) := by
      rw [← toInt32_natCast (n := v.length-1) (by omega)]
      congr 1
      omega
    rw [join_eq hne, hlast, if_neg (by omega), Int.toNat_natCast,
      List.take_of_length_le (by omega)]

theorem join_long (hv : 2^31 ≤ v.length) (h : join v pat 0 (-1) = some s) :
    ∃ n, 0 < n ∧ n < v.length ∧ s = pat.intercalate (v.take n) := by
  have hne : v ≠ [] := List.length_pos_iff.mp (by omega)
  have hrange := toInt32_range ((v.length:ℤ)-1)
  rw [join_eq hne] at h
  split_ifs at h
  cases h
  exact ⟨_,Nat.succ_pos _,by omega,rfl⟩

theorem join_max (hv : v.length = 2^31) : join v pat 0 (-1) = none := by
  have hne : v ≠ [] := List.length_pos_iff.mp (by omega)
  rw [join_eq hne, if_pos]
  rw [hv]
  rfl

def Repeats (s pat : Str) : Prop := ∀ c ∈ s, pat = [c]

theorem find_repeats {c : Char} {cs : Str} (h : Repeats (c::cs) pat) :
    find pat (c::cs) = some 0 := by
  rw [find, h c List.mem_cons_self, if_pos]
  simp [List.isPrefixOf]

theorem repeats_none {rest : Str} (hf : find pat rest = none) :
    Repeats rest pat ↔ rest.length = 0 := by
  constructor
  · intro h
    cases rest with
    | nil => rfl
    | cons c cs =>
      rw [find_repeats h] at hf
      cases hf
  · intro h c hc
    rw [List.length_eq_zero_iff.mp h] at hc
    cases hc

theorem repeats_some {rest : Str} (hp : pat ≠ []) (hf : find pat rest = some t) :
    Repeats rest pat ↔
      t = 0 ∧ pat.length = 1 ∧ Repeats (rest.drop (t+pat.length)) pat := by
  have hpos := List.length_pos_iff.mpr hp
  have hle := find_le hf
  constructor
  · intro h
    obtain ⟨c,cs,rfl⟩ := List.exists_cons_of_length_pos (l := rest) (by omega)
    rw [find_repeats h] at hf
    cases hf
    refine ⟨rfl,by rw [h c List.mem_cons_self]; rfl,fun d hd => h d ?_⟩
    exact List.mem_of_mem_drop hd
  · rintro ⟨rfl,hone,h⟩ d hd
    obtain ⟨c,rfl⟩ := List.length_eq_one_iff.mp hone
    rw [find_parts hf, List.take_zero, List.nil_append, List.singleton_append] at hd
    rcases List.mem_cons.mp hd with rfl | hd
    · rfl
    · exact h d hd

theorem splitLoop_length {rest : Str} (hp : pat ≠ [])
    (h : Strings.splitLoop pat fuel rest = some v) :
    v.length ≤ rest.length+1 ∧ (v.length = rest.length+1 ↔ Repeats rest pat) := by
  induction fuel generalizing rest v with
  | zero => simp [Strings.splitLoop] at h
  | succ fuel ih =>
    rw [Strings.splitLoop] at h
    cases hf : find pat rest with
    | none =>
      rw [hf] at h
      cases h
      rw [repeats_none hf, List.length_singleton]
      omega
    | some t =>
      rw [hf] at h
      obtain ⟨w,hw,rfl⟩ := Option.map_eq_some_iff.mp h
      have hpos := List.length_pos_iff.mpr hp
      have hle := find_le hf
      obtain ⟨hbound,heq⟩ := ih hw
      rw [repeats_some hp hf, ← heq, List.length_drop, List.length_cons]
      rw [List.length_drop] at hbound
      omega

def SplitJoin (s pat : Str) : Prop :=
  ∃ v, Returns (split s pat) v ∧ v ≠ [] ∧ join v pat 0 (-1) = some s

/-- The pieces are too many for the counter of `join` when the string repeats the
pattern to the greatest length. -/
theorem splitJoin_iff (hp : pat ≠ []) (hs : s.length < 2^31) :
    SplitJoin s pat ↔ ¬(s.length = 2^31-1 ∧ Repeats s pat) := by
  obtain ⟨v,hv,hne,hjoin⟩ := splitLoop_join hp (Nat.lt_succ_self s.length)
  obtain ⟨hbound,hlen⟩ := splitLoop_length hp hv
  have hret := (split_iff hp hs).mpr hv
  constructor
  · rintro ⟨w,hw,-,hback⟩ ⟨hmax,hrep⟩
    rw [returns_unique hw hret, join_max (by rw [hlen.mpr hrep]; omega)] at hback
    cases hback
  · intro h
    have hlt : v.length < 2^31 := by
      by_contra hge
      exact h ⟨by omega,hlen.mp (by omega)⟩
    exact ⟨v,hret,hne,by rw [join_eq_paths hlt, join_default, hjoin]⟩

theorem split_segments (s : Str) : Strings.split s slash = some (segments s) := by
  rw [segments_eq, Strings.split, splitLoop_slash s _ (Nat.lt_succ_self _)]

theorem segments_returned (hs : s.length < 2^31) : Returns (split s slash) (segments s) :=
  (split_iff (by decide) hs).mpr (split_segments s)

theorem split_returned (hs : s.length < 2^31) (hf : s.length < fuel) :
    split s slash fuel = some (segments s) := by
  rw [split_eq hs, segments_eq, splitLoop_slash s _ hf]

theorem parentPath_joined (hs : s.length < 2^31) :
    join (segments s).dropLast slash 0 (-1) = some (parentPath s) := by
  have hlen := (splitLoop_length (by decide) (split_segments s)).1
  exact join_eq_paths (by rw [List.length_dropLast]; omega)

def JoinSplit (v : List Str) : Prop :=
  ∃ s, join v slash 0 (-1) = some s ∧ Returns (split s slash) v

def lastStart (v : List Str) : ℕ := (v.dropLast.map (fun w => w.length+1)).sum

def joinedLength (v : List Str) : ℕ := lastStart v+(v.getLastD []).length

/-- The length as an `int` is right, or it is below the start of the last piece,
so that the count is negative, and the difference is an `int`. -/
def LengthFits (size start : ℕ) : Prop :=
  size < 2^31 ∨ start < 2^31 ∧ toInt32 size < start ∧ (start:ℤ) ≤ toInt32 size+2^31

instance (size start : ℕ) : Decidable (LengthFits size start) :=
  inferInstanceAs (Decidable (_ ∨ _))

theorem find_piece {w : Str} (hw : '/' ∉ w) (rest : Str) :
    find slash (w++ '/'::rest) = some w.length := by
  rw [find_slash, if_pos (by simp), List.idxOf_append_of_notMem hw, List.idxOf_cons_self]
  rfl

theorem find_end {w : Str} (hw : '/' ∉ w) : find slash w = none := by
  rw [find_slash, if_neg hw]

theorem piece_rest (hi : i ≤ s.length) (j : ℤ) :
    piece s i j = s.drop i ↔ j < i ∨ s.length ≤ j := by
  rw [piece]
  split_ifs with hj
  · simp [hj]
  · rw [List.take_eq_self_iff, List.length_drop]
    omega

theorem splitLoop_tail (hi : i ≤ s.length) (hmax : i < 2^31) (hw : '/' ∉ s.drop i) :
    splitLoop (fun _ => true) s slash (fuel+1) i = some [s.drop i] ↔
      LengthFits s.length i := by
  have hrange := toInt32_range s.length
  have hsize : (s.length:ℤ) ≤ toInt32 s.length ↔ s.length < 2^31 := by
    rw [← toInt32_eq_iff]
    have hle := toInt32_le s.length
    omega
  rw [splitLoop_last hi (find_end hw), LengthFits, ← hsize]
  split_ifs with hint
  · rw [Option.some.injEq, List.cons.injEq, piece_rest hi]
    rw [IsInt] at hint
    simp only [and_true]
    omega
  · rw [IsInt] at hint
    simp only [false_iff]
    omega

theorem length_piece (hi : i ≤ s.length) (ht : i+t < s.length)
    (h : (piece s i (toInt32 (i+t : ℕ))).length = t) : i+t < 2^31 := by
  have hrange := toInt32_range (i+t : ℕ)
  rw [piece] at h
  split_ifs at h
  · rw [List.length_drop] at h
    omega
  · rw [List.length_take, List.length_drop] at h
    omega

theorem splitLoop_head {w : Str} (hi : i ≤ s.length) (hf : find pat (s.drop i) = some t)
    (h : splitLoop (fun _ => true) s pat (fuel+1) i = some (w::v)) :
    v = [] ∨ w = piece s i (toInt32 (i+t : ℕ)) := by
  have hp : narrowed (findFrom s pat i) = toInt32 (i+t : ℕ) := by
    rw [findFrom_eq hi, hf]
    rfl
  rw [splitLoop] at h
  simp only [hp, if_true] at h
  by_cases hmiss : toInt32 (i+t : ℕ) = -1
  · left
    simp only [if_pos hmiss, substr_eq hi] at h
    split_ifs at h
    exact (List.cons.inj (Option.some.inj h)).2.symm
  · right
    simp only [if_neg hmiss, substr_eq hi] at h
    split_ifs at h
    obtain ⟨u,-,hu⟩ := Option.map_eq_some_iff.mp h
    exact (List.cons.inj hu).1.symm

theorem drop_piece {w rest : Str} (h : s.drop i = w++ '/'::rest) :
    s.drop (i+w.length+1) = rest ∧ i+w.length+1+rest.length = s.length := by
  have hlen := congrArg List.length h
  rw [List.length_drop, List.length_append, List.length_cons] at hlen
  refine ⟨?_,by omega⟩
  rw [Nat.add_assoc, ← List.drop_drop, h, ← List.drop_drop, List.drop_left]
  rfl

theorem intercalate_slash (w u : Str) (us : List Str) :
    slash.intercalate (w::u::us) = w++ '/'::slash.intercalate (u::us) := by
  rw [List.intercalate_cons_cons, List.append_assoc]
  rfl

theorem splitLoop_piece {w rest : Str} (hw : '/' ∉ w) (hi : i ≤ s.length)
    (hs : s.drop i = w++ '/'::rest) (hnext : i+w.length+1 < 2^31) :
    splitLoop (fun _ => true) s slash (fuel+1) i =
      (splitLoop (fun _ => true) s slash fuel (i+w.length+1 : ℕ)).map (w::·) := by
  have hf : find slash (s.drop i) = some w.length := by rw [hs, find_piece hw]
  have hint : toInt32 ((i+w.length+slash.length : ℕ):ℤ) = (i+w.length+1 : ℕ) :=
    toInt32_natCast hnext
  rw [splitLoop_next hi hf (by omega), hint, hs, List.take_left]

theorem place_of_piece {w rest : Str} (hw : '/' ∉ w) (hi : i ≤ s.length)
    (hs : s.drop i = w++ '/'::rest) (hv : v ≠ [])
    (h : splitLoop (fun _ => true) s slash (fuel+1) i = some (w::v)) :
    i+w.length+1 < 2^31 := by
  have hf : find slash (s.drop i) = some w.length := by rw [hs, find_piece hw]
  have hlen := (drop_piece hs).2
  have hpiece := (splitLoop_head hi hf h).resolve_left hv
  have hplace := length_piece hi (by omega) (congrArg List.length hpiece).symm
  by_contra hge
  have hend : ((i+w.length+slash.length : ℕ):ℤ) = 2^31 := by
    rw [slash, List.length_singleton]
    omega
  rw [splitLoop_next hi hf hplace, hend, splitLoop_neg (by decide)] at h
  cases h

theorem start_of_last {w : Str} (hi : i ≤ s.length) (hs : s.drop i = w) :
    s.length-(([w]:List Str).getLastD []).length = i := by
  rw [List.getLastD_cons, List.getLastD_nil, ← hs, List.length_drop]
  omega

theorem length_intercalate (hv : v ≠ []) : (slash.intercalate v).length = joinedLength v := by
  induction v with
  | nil => exact absurd rfl hv
  | cons w ws ih =>
    cases ws with
    | nil => simp [joinedLength, lastStart]
    | cons u us =>
      have hrest := ih (by simp)
      rw [joinedLength, lastStart] at hrest ⊢
      rw [intercalate_slash, List.dropLast_cons_cons, List.map_cons, List.sum_cons,
        List.length_append, List.length_cons, hrest]
      simp only [List.getLastD_cons]
      omega

theorem splitLoop_begins {u r : List Str} (hne : u ≠ []) (hfree : ∀ w ∈ u, '/' ∉ w)
    (hi : i ≤ s.length) (hmax : i < 2^31) (hs : s.drop i = slash.intercalate u)
    (h : splitLoop (fun _ => true) s slash fuel i = some r) (hp : u <+: r) :
    r = u ∧ LengthFits s.length (s.length-(u.getLastD []).length) := by
  induction u generalizing i fuel r with
  | nil => exact absurd rfl hne
  | cons w us ih =>
    have hw := hfree w List.mem_cons_self
    obtain ⟨fuel,rfl⟩ : ∃ n, fuel = n+1 := by
      cases fuel with
      | zero => simp [splitLoop] at h
      | succ n => exact ⟨n,rfl⟩
    obtain ⟨r,rfl⟩ : ∃ r', r = w::r' := by
      obtain ⟨z,rfl⟩ := hp
      exact ⟨us++z,rfl⟩
    cases us with
    | nil =>
      rw [List.intercalate_singleton] at hs
      have hone := h
      rw [splitLoop_last hi (find_end (hs ▸ hw))] at hone
      split_ifs at hone
      have hr := (List.cons.inj (Option.some.inj hone)).2.symm
      rw [hr, ← hs, splitLoop_tail hi hmax (hs ▸ hw)] at h
      rw [start_of_last hi hs]
      exact ⟨by rw [hr],h⟩
    | cons w' us =>
      rw [intercalate_slash] at hs
      obtain ⟨hdrop,hlen⟩ := drop_piece hs
      have hr : r ≠ [] := by
        rintro rfl
        simpa using hp.length_le
      have hnext := place_of_piece hw hi hs hr h
      rw [splitLoop_piece hw hi hs hnext] at h
      obtain ⟨r',hr',heq⟩ := Option.map_eq_some_iff.mp h
      rw [(List.cons.inj heq).2] at hr'
      obtain ⟨hres,hfits⟩ := ih (by simp) (fun x hx => hfree x (List.mem_cons_of_mem _ hx))
        (by omega) hnext hdrop hr' (List.cons_prefix_cons.mp hp).2
      refine ⟨by rw [hres],?_⟩
      simpa only [List.getLastD_cons] using hfits

/-- The loop returns the pieces if the length fits. -/
theorem splitLoop_pieces {u : List Str} (hne : u ≠ []) (hfree : ∀ w ∈ u, '/' ∉ w)
    (hi : i ≤ s.length) (hs : s.drop i = slash.intercalate u)
    (hfits : LengthFits s.length (s.length-(u.getLastD []).length)) :
    splitLoop (fun _ => true) s slash u.length i = some u := by
  have hstart : s.length-(u.getLastD []).length < 2^31 := by
    rcases hfits with h | h
    · omega
    · exact h.1
  induction u generalizing i with
  | nil => exact absurd rfl hne
  | cons w us ih =>
    have hw := hfree w List.mem_cons_self
    cases us with
    | nil =>
      rw [List.intercalate_singleton] at hs
      rw [start_of_last hi hs] at hfits hstart
      have htail : splitLoop (fun _ => true) s slash (0+1) i = some [s.drop i] :=
        (splitLoop_tail hi hstart (hs ▸ hw)).mpr hfits
      rw [hs] at htail
      exact htail
    | cons w' us =>
      rw [intercalate_slash] at hs
      obtain ⟨hdrop,hlen⟩ := drop_piece hs
      -- The last piece starts at the next place or after it.
      have hlast := length_intercalate (v := w'::us) (by simp)
      rw [joinedLength] at hlast
      simp only [List.getLastD_cons] at hlast hstart hfits ih
      have hrest := ih (by simp) (fun x hx => hfree x (List.mem_cons_of_mem _ hx))
        (by omega) hdrop hfits hstart
      rw [List.length_cons, splitLoop_piece hw hi hs (by omega), hrest]
      rfl

theorem joinSplit_iff (hv : v ≠ []) (hfree : ∀ w ∈ v, '/' ∉ w) : JoinSplit v ↔
    v.length < 2^31 ∧ LengthFits (joinedLength v) (lastStart v) := by
  have hlast : joinedLength v-(v.getLastD []).length = lastStart v := Nat.add_sub_cancel _ _
  constructor
  · rintro ⟨s,hjoin,fuel,hret⟩
    have hbegins {u : List Str} (hu : u ≠ []) (hp : u <+: v)
        (hs : s = slash.intercalate u) :=
      splitLoop_begins (i := 0) hu (fun w hw => hfree w (hp.subset hw)) (Nat.zero_le _)
        (by omega) hs hret hp
    have hlt : v.length < 2^31 := by
      by_contra hge
      obtain ⟨n,hpos,hn,hs⟩ := join_long (by omega) hjoin
      have hlen := List.length_take_of_le (Nat.le_of_lt hn)
      have hu : v.take n ≠ [] := List.length_pos_iff.mp (by omega)
      rw [← (hbegins hu (List.take_prefix n v) hs).1] at hlen
      omega
    rw [join_eq_paths hlt, join_default] at hjoin
    obtain rfl := Option.some.inj hjoin
    have hfits := (hbegins hv List.prefix_rfl rfl).2
    rw [length_intercalate hv, hlast] at hfits
    exact ⟨hlt,hfits⟩
  · rintro ⟨hlt,hfits⟩
    refine ⟨slash.intercalate v,by rw [join_eq_paths hlt, join_default],v.length,?_⟩
    exact splitLoop_pieces (i := 0) hv hfree (Nat.zero_le _) rfl
      (by rw [length_intercalate hv, hlast]; exact hfits)

theorem joinSplit_pair {w : Str} (hw : '/' ∉ w) :
    JoinSplit [[],w] ↔ LengthFits (1+w.length) 1 := by
  rw [joinSplit_iff (by simp) (by simpa using hw)]
  simp [joinedLength, lastStart]

theorem repeats_replicate (n : ℕ) (c : Char) : Repeats (List.replicate n c) [c] := by
  intro d hd
  rw [List.eq_of_mem_replicate hd]

theorem slash_free_replicate (n : ℕ) : '/' ∉ List.replicate n 'a' := by
  intro h
  have hc := List.eq_of_mem_replicate h
  revert hc
  decide

/-- A string below 2^31 is always taken apart, and put together again unless it
repeats the pattern 2^31−1 times. Strings without a slash come back when there
are fewer than 2^31 of them and their length, joined, fits. The FUSE variant drops
the empty pieces and does nothing else. -/
theorem split_join_exact (s pat : Str) (v : List Str) :
    (pat ≠ [] → s.length < 2^31 →
      (∃ v, Returns (split s pat) v ∧ v ≠ []) ∧
        (SplitJoin s pat ↔ ¬(s.length = 2^31-1 ∧ Repeats s pat))) ∧
    (v ≠ [] → (∀ w ∈ v, '/' ∉ w) →
      (JoinSplit v ↔ v.length < 2^31 ∧ LengthFits (joinedLength v) (lastStart v))) ∧
    ∀ v', Returns (fuseSplit s pat) v' ↔
      ∃ v, Returns (split s pat) v ∧ v' = v.filter (fun c => !c.isEmpty) := by
  refine ⟨fun hp hs => ⟨?_,splitJoin_iff hp hs⟩,joinSplit_iff,fun v' => fuseSplit_iff⟩
  obtain ⟨v,hv,hne,-⟩ := splitLoop_join hp (Nat.lt_succ_self s.length)
  exact ⟨v,(split_iff hp hs).mpr hv,hne⟩

theorem split_join_exact_dir : SplitJoin ['/','d','/'] slash ∧ JoinSplit [[],['d'],[]] ∧
    Returns (fuseSplit ['/','d','/'] slash) [['d']] := by
  obtain ⟨hsplit,hjoin,hfuse⟩ := split_join_exact ['/','d','/'] slash [[],['d'],[]]
  refine ⟨?_,?_,?_⟩
  · exact (hsplit (by decide) (by decide)).2.mpr (fun h => absurd h.1 (by decide))
  · exact (hjoin (by decide) (by decide)).mpr ⟨by decide,by decide⟩
  · exact (hfuse [['d']]).mpr ⟨[[],['d'],[]],⟨3,by decide⟩,rfl⟩

/-- 2^31−1 slashes, and an empty string with one of 2^32 bytes. -/
theorem split_join_fails :
    ((List.replicate (2^31-1) '/').length < 2^31 ∧
      ¬SplitJoin (List.replicate (2^31-1) '/') slash) ∧
    ¬JoinSplit [[],List.replicate (2^32) 'a'] := by
  have hslash : slash ≠ [] := by decide
  have hlt : (List.replicate (2^31-1) '/').length < 2^31 := by
    rw [List.length_replicate]
    decide
  refine ⟨⟨hlt,?_⟩,?_⟩
  · rw [splitJoin_iff hslash hlt, not_not]
    exact ⟨List.length_replicate,repeats_replicate _ '/'⟩
  · rw [joinSplit_pair (slash_free_replicate _), List.length_replicate]
    decide

end Bbfs.Splitting
