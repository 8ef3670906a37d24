import FineGrain.World
/-!
Values that count as the same are equal.
-/

namespace FineGrain

namespace Value

mutual

theorem same_iff (a b : Value) : a.same b = true ↔ a = b := by
  cases a with
  | list as =>
    cases b with
    | list bs => simpa [same] using sameItems_iff as bs
    | _ => simp [same]
  | _ => cases b <;> simp [same]

theorem sameItems_iff (as bs : List Value) : sameItems as bs = true ↔ as = bs := by
  cases as with
  | nil => cases bs <;> simp [sameItems]
  | cons a as =>
    cases bs with
    | nil => simp [sameItems]
    | cons b bs => simp [sameItems, same_iff a b, sameItems_iff as bs]

end

instance : DecidableEq Value := fun a b => decidable_of_iff _ (same_iff a b)

end Value

deriving instance DecidableEq for Provider

end FineGrain
