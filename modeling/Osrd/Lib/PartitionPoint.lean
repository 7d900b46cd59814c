import Mathlib.Data.Nat.Notation

/-! Binary searches for the place where a property of the indices starts to hold.

    The property is read through `above`, which may fail. `firstAbove` narrows a half-open window to the
    first index where it holds, `lastNotAbove` a closed one to the last index where it does not. Each
    round shortens the window, so its length is fuel enough. -/

namespace PartitionPoint

variable {above : ℕ → Option Bool}

def firstAbove (above : ℕ → Option Bool) : ℕ → ℕ → ℕ → Option ℕ
  | 0, left, right => if left < right then none else some right
  | fuel + 1, left, right =>
      if left < right then do
        let isAbove ← above ((left + right) / 2)
        if isAbove then firstAbove above fuel left ((left + right) / 2)
        else firstAbove above fuel ((left + right) / 2 + 1) right
      else some right

def lastNotAbove (above : ℕ → Option Bool) : ℕ → ℕ → ℕ → Option ℕ
  | 0, left, right => if left = right then some left else none
  | fuel + 1, left, right =>
      if left = right then some left
      else do
        let isAbove ← above ((left + right + 1) / 2)
        if isAbove then lastNotAbove above fuel left ((left + right + 1) / 2 - 1)
        else lastNotAbove above fuel ((left + right + 1) / 2) right

theorem firstAbove_eq {m : ℕ} : ∀ {fuel left right : ℕ}, right - left ≤ fuel → left ≤ m → m ≤ right →
    (∀ i, left ≤ i → i < m → above i = some false) →
    (∀ i, m ≤ i → i < right → above i = some true) → firstAbove above fuel left right = some m
  | 0, left, right, hfuel, hleft, hright, _, _ => by
    rw [firstAbove, if_neg (by omega)]
    exact congrArg some (by omega)
  | fuel + 1, left, right, hfuel, hleft, hright, hbelow, habove => by
    rw [firstAbove]
    split
    · by_cases hmid : (left + right) / 2 < m
      · rw [hbelow _ (by omega) hmid]
        exact firstAbove_eq (by omega) hmid hright (fun i hi => hbelow i (by omega)) habove
      · rw [habove _ (by omega) (by omega)]
        exact firstAbove_eq (by omega) hleft (by omega) hbelow fun i hi hlt => habove i hi (by omega)
    · exact congrArg some (by omega)

theorem lastNotAbove_eq {m : ℕ} : ∀ {fuel left right : ℕ}, right - left ≤ fuel → left ≤ m →
    m ≤ right → (∀ i, left < i → i ≤ m → above i = some false) →
    (∀ i, m < i → i ≤ right → above i = some true) → lastNotAbove above fuel left right = some m
  | 0, left, right, hfuel, hleft, hright, _, _ => by
    rw [lastNotAbove, if_pos (by omega)]
    exact congrArg some (by omega)
  | fuel + 1, left, right, hfuel, hleft, hright, hbelow, habove => by
    rw [lastNotAbove]
    split
    · exact congrArg some (by omega)
    · by_cases hmid : (left + right + 1) / 2 ≤ m
      · rw [hbelow _ (by omega) hmid]
        exact lastNotAbove_eq (by omega) hmid hright (fun i hi => hbelow i (by omega)) habove
      · rw [habove _ (by omega) (by omega)]
        exact lastNotAbove_eq (by omega) hleft (by omega) hbelow
          fun i hi hle => habove i hi (by omega)

end PartitionPoint
