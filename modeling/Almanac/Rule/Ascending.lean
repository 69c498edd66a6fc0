set_option autoImplicit false

/-!
Ascending lists without repetition, built by insertion.
-/

namespace Almanac

variable {α : Type} [DecidableEq α]

/-- Inserts a value after all that do not come after it, unless it is there already. -/
def insertAscending (before : α → α → Bool) (x : α) : List α → List α
  | [] => [x]
  | y :: ys =>
    if x = y then y :: ys
    else if before x y then x :: y :: ys
    else y :: insertAscending before x ys

def ascending (before : α → α → Bool) (xs : List α) : List α :=
  xs.foldl (fun acc x => insertAscending before x acc) []

end Almanac
