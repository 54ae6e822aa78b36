import Bbfs.Census
import Bbfs.Failure
import Bbfs.Directories

/-!
# Renames that cannot be done

`my_rename` looks at four paths and compares none of the handles with 0. The
only pairs of paths it refuses are those whose old path ends in a dot name, and
then it may still have inserted the two handles that it looked up first.
-/

set_option autoImplicit false

namespace Bbfs.Refusal
open Relation
open Bbfs.Strings Bbfs.Files Bbfs.Resolve Bbfs.Calls Bbfs.Session Bbfs.Walks Bbfs.Effects
open Bbfs.Outcomes Bbfs.Numbers Bbfs.Failure Bbfs.Directories

variable {v : View} {s s' : Fs} {path newpath : Str} {r : ℤ}

def Inside (v : View) (path newpath : Str) : Prop :=
  (v (resolve v path)).isDir = true ∧
    ReflTransGen (Holds v) (resolve v path) (resolve v (parentPath newpath))

/-- A pair of paths that a rename cannot serve. -/
def Misplaced (v : View) (path newpath : Str) : Prop :=
  ¬ Resolves v path ∨ (v (resolve v (parentPath newpath))).isDir = false ∨
    tail newpath = [] ∨ IsDots (tail newpath) ∨ Inside v path newpath

/-- The call fails, and the tables agree at every key but the sentinel. -/
def Refused (s : Fs) (r : ℤ) (s' : Fs) : Prop := r = anErr ∧ SameTable s s'

/-- The old path ends in a dot name, and what the call looks up before it finds
that out is 0 or in the table already. -/
def TurnedAway (s : Fs) (path : Str) : Prop :=
  IsDots (tail path) ∧
    ∀ k ∈ [real s.file path,real s.file (parentPath path)], k = 0 ∨ k ∈ s.entry

instance (s : Fs) (path : Str) : Decidable (TurnedAway s path) :=
  inferInstanceAs (Decidable (_ ∧ _))

theorem rename_touches (newpath : Str) (hd : IsDots (tail path)) :
    touches v (.rename path newpath) = [real v path,real v (parentPath path)] := by
  simp [touches, hd]

/-- The return value depends on the last segment of the old path alone. -/
theorem rename_err_iff (h : myRename path newpath s = (r,s')) : r = anErr ↔ IsDots (tail path) := by
  rw [myRename] at h
  constructor
  · intro hr
    by_contra hd
    have hret : ok = r := by
      simp only [findIno_eq, if_neg hd] at h
      exact congrArg Prod.fst h
    rw [hr] at hret
    exact absurd hret (by decide)
  · intro hd
    simp only [findIno_eq, if_pos hd] at h
    exact (congrArg Prod.fst h).symm

theorem refused_iff (hs : Settled s) (h : myRename path newpath s = (r,s')) :
    Refused s r s' ↔ TurnedAway s path := by
  have ha : answer plainEnv (.rename path newpath) s = some (r,s') := congrArg some h
  obtain ⟨he,-⟩ := did_of_answer hs ha
  rw [Refused, TurnedAway, rename_err_iff h]
  apply and_congr_right
  intro hd
  rw [sameTable_iff, ← rename_touches newpath hd]
  generalize hv : s'.file = w at he
  generalize hK : s'.keys = K' at he ⊢
  generalize hn : s'.count = n' at he
  cases he with
  | idle stopped unspent keys =>
    rw [← hK] at keys ⊢
    rw [touched_iff keys]
    exact and_iff_left (fun _ _ => rfl)
  | leaked f create => simp [Call.created] at create
  | entered p f create => simp [Call.created] at create
  | renamed _ _ go => exact absurd hd go
  | patched k g keeps other => simp [Call.edits, Call.isNamespace] at other

/-- In every state of a session, a rename that cannot be done is refused, with
nothing changed, exactly when its old path ends in a dot name and leads through
keys of the table. -/
theorem rename_refused_iff {env : Env} (h : Sessions env anyCall s)
    (ha : myRename path newpath s = (r,s')) :
    (Misplaced s.file path newpath → Refused s r s') ↔
      (Misplaced s.file path newpath → TurnedAway s path) :=
  imp_congr_right (fun _ => refused_iff (sessions_settled h) ha)

theorem rename_refused_run :
    Misplaced (after []).file ['/','.'] ['/','x','/','y'] ∧
      Refused (after []) anErr (after [.rename ['/','.'] ['/','x','/','y']]) := by
  have ha : answer plainEnv (.rename ['/','.'] ['/','x','/','y']) (after []) =
      some (anErr,after ([]++[.rename ['/','.'] ['/','x','/','y']])) :=
    answer_after (by decide +kernel) (by decide +kernel)
  have hm : Misplaced (after []).file ['/','.'] ['/','x','/','y'] :=
    Or.inr (Or.inl (by decide +kernel))
  exact ⟨hm,(rename_refused_iff (after_session (by decide) (by decide))
    (Option.some.inj ha)).mpr (fun _ => by decide +kernel) hm⟩

/-- A rename of a missing file returns ok, and takes the name of the file in
the way: the number of that name is 0 afterwards. -/
theorem missing_rename_accepted :
    Sessions plainEnv anyCall (after [.creat ['/','b'] 0o644#32]) ∧
      Misplaced (after [.creat ['/','b'] 0o644#32]).file ['/','x'] ['/','b'] ∧
      myRename ['/','x'] ['/','b'] (after [.creat ['/','b'] 0o644#32]) =
        (ok,after [.creat ['/','b'] 0o644#32,.rename ['/','x'] ['/','b']]) ∧
      ¬ Refused (after [.creat ['/','b'] 0o644#32]) ok
        (after [.creat ['/','b'] 0o644#32,.rename ['/','x'] ['/','b']]) ∧
      real (after [.creat ['/','b'] 0o644#32]).file ['/','b'] = 3 ∧
      real (after [.creat ['/','b'] 0o644#32,.rename ['/','x'] ['/','b']]).file ['/','b'] = 0 := by
  have ha : answer plainEnv (.rename ['/','x'] ['/','b']) (after [.creat ['/','b'] 0o644#32]) =
      some (ok,after ([.creat ['/','b'] 0o644#32]++[.rename ['/','x'] ['/','b']])) :=
    answer_after (by decide +kernel) (by decide +kernel)
  refine ⟨after_session (by decide) (by decide),Or.inl (by decide +kernel),Option.some.inj ha,
    ?_,by decide +kernel,by decide +kernel⟩
  intro ⟨hr,_⟩
  exact absurd hr (by decide)

end Bbfs.Refusal
