import Mathlib.Data.Rat.Init

/-!
# Commands and replies (`CRDT.h`)

What the prepare phases of the data types share: the errors that they reply with and the check of
the number of arguments. Numbers of a command are `none` where the argument is not a number; the
values of a queue are exact numbers (`ℚ`).

A queue command `[type]z…` names a queue and an element. `ZCmd` is the rest of it.
-/

namespace CrdtRedis

/-- Strings of the server: sequences of characters. -/
abbrev Sds := List Char

/-- `sdstolower`. -/
def sdstolower (s : Sds) : Sds := s.map Char.toLower

/-- `strcmp(a, b) == 0`: what follows a NUL does not count. -/
def strEq (a b : Sds) : Bool := a.takeWhile (· ≠ '\x00') = b.takeWhile (· ≠ '\x00')

/-- The error replies of the prepare phases. -/
inductive ReplyErr where
  | syntaxerr
  /-- "value is not an integer". -/
  | notInteger
  /-- "value is not a valid float". -/
  | notFloat
  /-- `shared.ele_exist`. -/
  | eleExist
  /-- `shared.ele_nexist`. -/
  | eleNexist
  /-- "No pre element … in the list." -/
  | noPre (pre : Sds)
  /-- "Element … hasn't been added, can't be readded." -/
  | notAdded (id : Sds)
  /-- "Element … has set its position, can only be readded." -/
  | onlyReadd (id : Sds)
  deriving DecidableEq

/-- `CHECK_ARGC`. -/
def checkArgc (max argc : ℕ) : Except ReplyErr Unit :=
  if max < argc ∨ argc < 2 then .error .syntaxerr else .ok ()

theorem checkArgc_ok {max argc : ℕ} (h : ∀ err, checkArgc max argc = .error err → False) :
    checkArgc max argc = .ok () := by
  cases hc : checkArgc max argc with
  | error err => exact (h err hc).elim
  | ok u => rfl

theorem checkArgc_le {max argc : ℕ} (h : checkArgc max argc = .ok ()) : argc ≤ max := by
  unfold checkArgc at h
  split at h
  · cases h
  · omega

/-- A number argument (`CHECK_ARG_TYPE_INT`, `CHECK_ARG_TYPE_DOUBLE`). -/
def checkArg {α : Type} (err : ReplyErr) : Option α → Except ReplyErr α
  | none => .error err
  | some v => .ok v

theorem checkArg_ok {α : Type} {err : ReplyErr} {o : Option α} {v : α}
    (h : checkArg err o = .ok v) : o = some v := by
  cases o with
  | none => cases h
  | some w => cases h; rfl

/-- A command on one element of a queue. -/
inductive ZCmd where
  | zadd (argc : ℕ) (v : Option ℚ)
  | zincrby (argc : ℕ) (v : Option ℚ)
  | zrem (argc : ℕ)

end CrdtRedis
