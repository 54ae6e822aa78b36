import Bbfs.Attributes

/-!
# The list of attribute names

`my_llistxattr` writes each name and a NUL after the names before it, as long
as the position behind the NUL is below the size. The positions are `int`.
-/

set_option autoImplicit false

namespace Bbfs.AttributeList
open Bbfs.Strings Bbfs.Files Bbfs.Resolve Bbfs.Calls Bbfs.Session Bbfs.Contents Bbfs.Attributes
open Bbfs.Runs

variable {size : ℕ} {names : List Str} {m : ℤ → Char}

def encoded (names : List Str) : Str := names.flatMap (fun name => cstr name++['\x00'])

@[simp] theorem encoded_nil : encoded [] = [] := rfl

@[simp] theorem encoded_cons (name : Str) (names : List Str) :
    encoded (name::names) = (cstr name++['\x00'])++encoded names :=
  List.flatMap_cons

@[simp] theorem encoded_append (xs ys : List Str) : encoded (xs++ys) = encoded xs++encoded ys :=
  List.flatMap_append

def fitting (size : ℕ) (names : List Str) : ℕ :=
  Nat.findGreatest (fun j => (encoded (names.take j)).length ≤ size) names.length

def longest (size : ℕ) (names : List Str) : List Str := names.take (fitting size names)

theorem longest_fits (size : ℕ) (names : List Str) :
    (encoded (longest size names)).length ≤ size :=
  Nat.findGreatest_spec (P := fun j => (encoded (names.take j)).length ≤ size)
    (Nat.zero_le _) (by simp)

theorem longest_next {name : Str} {rest : List Str}
    (h : names.drop (fitting size names) = name::rest) :
    size < (encoded (longest size names++[name])).length := by
  have hlt : fitting size names < names.length := by
    have hlen := congrArg List.length h
    rw [List.length_drop, List.length_cons] at hlen
    omega
  have hnot := Nat.findGreatest_is_greatest (P := fun j => (encoded (names.take j)).length ≤ size)
    (Nat.lt_succ_self (fitting size names)) hlt
  have htake : names.take (fitting size names+1) = longest size names++[name] := by
    rw [List.take_add, h]
    rfl
  simp only [htake] at hnot
  omega

theorem encoded_splitOn (names : List Str) :
    (encoded names).splitOn '\x00' = names.map cstr++[[]] := by
  induction names with
  | nil => rfl
  | cons name names ih =>
    have hfree : '\x00' ∉ cstr name := by
      intro hmem
      have htrue := List.mem_takeWhile_imp hmem
      simp at htrue
    rw [encoded_cons, List.append_assoc, List.singleton_append, List.splitOn_append_cons_self, ih,
      List.splitOn_eq_singleton hfree]
    rfl

def arrayAfter (m : ℤ → Char) (list : List (ℤ × Char)) : ℤ → Char :=
  list.foldl (fun m w => Function.update m w.1 w.2) m

def held (m : ℤ → Char) (r : ℤ) : Str := (List.range r.toNat).map (fun i : ℕ => m i)

def sequential (bytes : Str) : List (ℤ × Char) := bytes.mapIdx (fun i c => ((i:ℤ),c))

theorem arrayAfter_sequential (bytes : Str) (i : ℕ) (hi : i < bytes.length) :
    arrayAfter m (sequential bytes) i = bytes[i] := by
  induction bytes using List.reverseRecOn with
  | nil => simp at hi
  | append_singleton bytes c ih =>
    have hseq : sequential (bytes++[c]) = sequential bytes++[((bytes.length:ℤ),c)] :=
      List.mapIdx_concat
    rw [arrayAfter, hseq, List.foldl_append, List.foldl_cons, List.foldl_nil]
    by_cases he : i = bytes.length
    · subst he
      simp
    · have hlt : i < bytes.length := by
        rw [List.length_append, List.length_singleton] at hi
        omega
      rw [Function.update_of_ne (by omega), List.getElem_append_left hlt]
      exact ih hlt

theorem held_sequential (bytes : Str) :
    held (arrayAfter m (sequential bytes)) bytes.length = bytes := by
  apply List.ext_getElem
  · simp [held]
  · intro i hi hi'
    simp only [held, List.getElem_map, List.getElem_range]
    exact arrayAfter_sequential bytes i hi'

theorem sequential_inside (bytes : Str) :
    ∀ w ∈ sequential bytes, 0 ≤ w.1 ∧ w.1 < bytes.length := by
  intro w hw
  obtain ⟨i,hi,rfl⟩ := List.mem_mapIdx.mp hw
  exact ⟨Int.natCast_nonneg i,Int.ofNat_lt.mpr hi⟩

theorem nameWrites_sequential (bytes name : Str)
    (h : bytes.length+(cstr name).length < 2^31) :
    sequential bytes++nameWrites name bytes.length (cstr name).length =
      sequential (bytes++(cstr name++['\x00'])) := by
  have hname : (List.range (cstr name).length).map
      (fun i : ℕ => (toInt32 (bytes.length+i),name.getD i '\x00')) =
      (cstr name).mapIdx (fun i c => (((i+bytes.length:ℕ):ℤ),c)) := by
    apply List.ext_getElem
    · simp
    · intro i hi hi'
      have hlt : i < (cstr name).length := by simpa using hi
      have hget : name.getD i '\x00' = (cstr name)[i] := by
        have hpre : cstr name <+: name := List.takeWhile_prefix _
        rw [hpre.getElem hlt, List.getD_eq_getElem]
      have hpos : toInt32 (bytes.length+i) = ((i+bytes.length:ℕ):ℤ) := by
        rw [← Nat.cast_add, toInt32_natCast (by omega), Nat.add_comm]
      simp only [List.getElem_map, List.getElem_range, List.getElem_mapIdx, hget, hpos]
  have hend : toInt32 (bytes.length+(cstr name).length) =
      (((cstr name).length+bytes.length:ℕ):ℤ) := by
    rw [← Nat.cast_add, toInt32_natCast h, Nat.add_comm]
  rw [nameWrites, Int.toNat_natCast, hname, hend]
  simp [sequential, List.mapIdx_append]

/-- The test on a name, in the program's conversions. -/
def Passes (size : ℕ) (curPos : ℤ) (name : Str) : Prop :=
  toU64 (toInt32 (curPos+toInt32 (cstr name).length+1)) < size

theorem passes_iff (bytes name : Str) (h : bytes.length+(cstr name).length+1 < 2^31) :
    Passes size bytes.length name ↔ bytes.length+(cstr name).length+1 < size := by
  have hcast : (bytes.length:ℤ)+(cstr name).length+1 =
      ((bytes.length+(cstr name).length+1:ℕ):ℤ) := by
    push_cast
    ring
  rw [Passes, toInt32_natCast (by omega), hcast, toInt32_natCast h, toU64_natCast (by omega)]

theorem listLoop_step (bytes name : Str) (h : bytes.length+(cstr name).length+1 < 2^31)
    (hpass : bytes.length+(cstr name).length+1 < size) :
    listLoop size (name::names) bytes.length (sequential bytes) =
      listLoop size names (bytes++(cstr name++['\x00'])).length
        (sequential (bytes++(cstr name++['\x00']))) := by
  have htest : Passes size bytes.length name := (passes_iff bytes name h).mpr hpass
  have hpos : toInt32 (bytes.length+toInt32 (cstr name).length+1) =
      ((bytes++(cstr name++['\x00'])).length:ℤ) := by
    rw [toInt32_natCast (n := (cstr name).length) (by omega)]
    rw [toInt32_of_range (by omega) (by omega)]
    simp only [List.length_append, List.length_singleton]
    push_cast
    ring
  rw [listLoop]
  refine (if_pos htest).trans ?_
  rw [hpos, toInt32_natCast (n := (cstr name).length) (by omega),
    nameWrites_sequential bytes name (by omega)]

theorem listLoop_append (xs ys : List Str) (bytes : Str)
    (hsize : xs = [] ∨ bytes.length+(encoded xs).length < size)
    (h31 : bytes.length+(encoded xs).length < 2^31) :
    listLoop size (xs++ys) bytes.length (sequential bytes) =
      listLoop size ys (bytes++encoded xs).length (sequential (bytes++encoded xs)) := by
  induction xs generalizing bytes with
  | nil => simp
  | cons name xs ih =>
    have hlt := hsize.resolve_left (List.cons_ne_nil name xs)
    simp only [encoded_cons, List.length_append, List.length_singleton] at hlt h31
    rw [List.cons_append, listLoop_step bytes name (by omega) (by omega), ih]
    · rw [encoded_cons, List.append_assoc bytes]
    · right
      simp only [List.length_append, List.length_singleton]
      omega
    · simp only [List.length_append, List.length_singleton]
      omega

theorem listLoop_stop {ys : List Str} {curPos : ℤ} {list : List (ℤ × Char)}
    (h : ∀ name rest, ys = name::rest → ¬ Passes size curPos name) :
    listLoop size ys curPos list = (curPos,list) := by
  cases ys with
  | nil => rfl
  | cons name rest => exact if_neg (h name rest rfl)

theorem listLoop_range {curPos : ℤ} {list : List (ℤ × Char)} (h : curPos < 2^31) :
    (listLoop size names curPos list).1 < 2^31 := by
  induction names generalizing curPos list with
  | nil => exact h
  | cons name names ih =>
    rw [listLoop]
    split_ifs
    · exact ih (toInt32_range _).2
    · exact h

/-- Every write is below the size, and the first `r` bytes are taken apart at
their NUL bytes into the longest prefix of the names that fits. -/
structure Lists (size : ℕ) (names : List Str) (m : ℤ → Char) (r : ℤ)
    (list : List (ℤ × Char)) : Prop where
  inside : ∀ w ∈ list, 0 ≤ w.1 ∧ w.1 < size
  length : r = (encoded (longest size names)).length
  names : (held (arrayAfter m list) r).splitOn '\x00' = (longest size names).map cstr++[[]]

/-- The names that fit leave room behind them, and their encoding has an `int`
length. -/
structure NotFull (size : ℕ) (names : List Str) : Prop where
  range : (encoded (longest size names)).length < 2^31
  room : (encoded (longest size names)).length = size → longest size names = []

def StopsNext (size : ℕ) (names : List Str) : Prop :=
  ∀ name rest, names.drop (fitting size names) = name::rest →
    ¬ Passes size (encoded (longest size names)).length name

theorem stopsNext_of_short (h : (encoded (longest size names)).length < 2^31)
    (hshort : ∀ name ∈ names, (cstr name).length < 2^31) : StopsNext size names := by
  intro name rest hdrop
  have hname : (cstr name).length < 2^31 := by
    apply hshort
    apply List.mem_of_mem_drop (i := fitting size names)
    rw [hdrop]
    exact List.mem_cons_self
  have hnext := longest_next hdrop
  simp only [encoded_append, encoded_cons, encoded_nil, List.append_nil, List.length_append,
    List.length_singleton] at hnext
  by_cases hfits : (encoded (longest size names)).length+(cstr name).length+1 < 2^31
  · rw [passes_iff _ _ hfits]
    omega
  · -- the sum wraps to a negative number, a huge unsigned one
    rw [Passes, toInt32_natCast hname, toInt32, Int.bmod_def, toU64]
    omega

theorem listLoop_lists (h : NotFull size names) (hstop : StopsNext size names) :
    Lists size names m (listLoop size names 0 []).1 (listLoop size names 0 []).2 := by
  have hfits := longest_fits size names
  have hsize : longest size names = [] ∨ ([]:Str).length+(encoded (longest size names)).length <
      size := by
    by_cases hfull : (encoded (longest size names)).length = size
    · exact Or.inl (h.room hfull)
    · right
      rw [List.length_nil]
      omega
  have hsplit : names = longest size names++names.drop (fitting size names) :=
    (List.take_append_drop (fitting size names) names).symm
  have hloop : listLoop size names 0 [] =
      (((encoded (longest size names)).length:ℤ),sequential (encoded (longest size names))) := by
    have hrun := listLoop_append (longest size names) (names.drop (fitting size names)) [] hsize
      (by simpa using h.range)
    rw [← hsplit, List.nil_append, listLoop_stop hstop] at hrun
    exact hrun
  rw [hloop]
  constructor
  · intro w hw
    obtain ⟨hw0,hw1⟩ := sequential_inside _ w hw
    exact ⟨hw0,by omega⟩
  · rfl
  · rw [held_sequential, encoded_splitOn]

theorem notFull_of_lists
    (h : Lists size names m (listLoop size names 0 []).1 (listLoop size names 0 []).2) :
    NotFull size names := by
  have hrange : (encoded (longest size names)).length < 2^31 := by
    have hpos : (listLoop size names 0 []).1 < 2^31 := listLoop_range (by decide)
    rw [h.length] at hpos
    omega
  refine ⟨hrange,?_⟩
  intro hfull
  by_contra hne
  -- the last name that fits ends at the size, so the loop has left it out
  obtain ⟨xs,name,hlong⟩ := List.eq_nil_or_concat' (longest size names) |>.resolve_left hne
  have hsplit : names = xs++(name::names.drop (fitting size names)) := by
    have htake := List.take_append_drop (fitting size names) names
    rw [show names.take (fitting size names) = xs++[name] from hlong] at htake
    rw [← List.singleton_append, ← List.append_assoc, htake]
  have hlen : (encoded xs).length+(cstr name).length+1 = size := by
    rw [← hfull, hlong]
    simp [Nat.add_assoc]
  have hstop : listLoop size (name::names.drop (fitting size names)) (encoded xs).length
      (sequential (encoded xs)) = (((encoded xs).length:ℤ),sequential (encoded xs)) := by
    apply listLoop_stop
    intro _ _ heq
    obtain ⟨rfl,-⟩ := List.cons.inj heq
    rw [passes_iff _ _ (by omega)]
    omega
  have hrun : listLoop size (xs++(name::names.drop (fitting size names))) 0 [] = _ :=
    listLoop_append xs _ [] (Or.inr (by rw [List.length_nil]; omega))
      (by rw [List.length_nil]; omega)
  rw [← hsplit, List.nil_append, hstop] at hrun
  have hr : (((encoded xs).length:ℕ):ℤ) = (encoded (longest size names)).length := by
    rw [← h.length, hrun]
  omega

def attributeNames (path : Str) (s : Fs) : List Str := xattrNames (s.file (real s.file path))

def Listed (path : Str) (size : ℕ) (m : ℤ → Char) (s : Fs) : Prop :=
  Lists size (attributeNames path s) m (myLlistxattr path size s).1.1
    (myLlistxattr path size s).1.2

theorem myLlistxattr_loop {path : Str} {s : Fs} (h : real s.file path ≠ 0) (size : ℕ) :
    (myLlistxattr path size s).1 = listLoop size (attributeNames path s) 0 [] := by
  simp only [myLlistxattr, findRealIno_eq, if_neg h, Fs.touch_file, attributeNames]

/-- The list is as long as fits exactly when the encoding of the names that
fit does not fill the array, its length fits an `int`, and no longer name
passes the test through the conversions. The last can happen only behind a
name of `2^31` bytes. -/
theorem attribute_list_iff (path : Str) (s : Fs) (h : real s.file path ≠ 0) (size : ℕ)
    (m : ℤ → Char) :
    (Listed path size m s → NotFull size (attributeNames path s)) ∧
      (NotFull size (attributeNames path s) → StopsNext size (attributeNames path s) →
        Listed path size m s) ∧
      ((∀ name ∈ attributeNames path s, (cstr name).length < 2^31) →
        (Listed path size m s ↔ NotFull size (attributeNames path s))) := by
  unfold Listed
  rw [myLlistxattr_loop h]
  refine ⟨notFull_of_lists,listLoop_lists,?_⟩
  intro hshort
  exact ⟨notFull_of_lists,fun hn => listLoop_lists hn (stopsNext_of_short hn.range hshort)⟩

theorem attributed_names : attributeNames ['/','f'] (after attributed) = [['n']] := by
  have hkeys : ((after attributed).file (real (after attributed).file ['/','f'])).xattr.keys =
      {['n']} := by decide +kernel
  rw [attributeNames, xattrNames, hkeys, Finset.sort_singleton]

theorem attribute_list_room : Listed ['/','f'] 3 (fun _ => 'x') (after attributed) := by
  have hiff := (attribute_list_iff ['/','f'] (after attributed) (by decide +kernel) 3
    (fun _ => 'x')).2.2
  rw [attributed_names] at hiff
  exact (hiff (by decide)).mpr ⟨by decide,by decide⟩

/-- Two bytes are enough for the name and its NUL. -/
theorem attribute_list_fails :
    ¬ ∀ (env : Env) (s : Fs) (path : Str) (size : ℕ) (m : ℤ → Char), Sessions env anyCall s →
      real s.file path ≠ 0 → Listed path size m s := by
  intro hall
  have hsession : Sessions plainEnv anyCall (after attributed) :=
    after_session (by decide +kernel) (meets_of_forall (fun _ _ => trivial) _ _)
  have hpath : real (after attributed).file ['/','f'] ≠ 0 := by decide +kernel
  have hlist := hall plainEnv (after attributed) ['/','f'] 2 (fun _ => 'x') hsession hpath
  unfold Listed at hlist
  rw [myLlistxattr_loop hpath, attributed_names] at hlist
  exact absurd ((notFull_of_lists hlist).room (by decide)) (by decide)

end Bbfs.AttributeList
