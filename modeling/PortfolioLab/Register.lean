/-!
# Registers

A register assigns values to symbols and remembers the order in which the symbols were entered.
Replacing a value keeps the symbol's place.
-/

namespace PortfolioLab

/-- Values by symbol, in order of entry. -/
abbrev Register (α : Type) : Type := List (String × α)

namespace Register

variable {α : Type}

def find? : Register α → String → Option α
  | [], _ => none
  | (key, value) :: rest, symbol => if key = symbol then some value else find? rest symbol

def has (r : Register α) (symbol : String) : Bool := (find? r symbol).isSome

/-- Give a symbol a value: in its place if it has one, at the end otherwise. -/
def put : Register α → String → α → Register α
  | [], symbol, new => [(symbol, new)]
  | (key, value) :: rest, symbol, new =>
    if key = symbol then (key, new) :: rest else (key, value) :: put rest symbol new

def remove : Register α → String → Register α
  | [], _ => []
  | (key, value) :: rest, symbol =>
    if key = symbol then remove rest symbol else (key, value) :: remove rest symbol

def symbols (r : Register α) : List String := r.map (·.1)

/-- A register of pairs; a later value of a symbol replaces an earlier one. -/
def ofPairs (pairs : List (String × α)) : Register α :=
  pairs.foldl (fun r pair => put r pair.1 pair.2) []

theorem find?_put_same (r : Register α) (symbol : String) (new : α) :
    find? (put r symbol new) symbol = some new := by
  induction r with
  | nil => simp [put, find?]
  | cons entry rest ih =>
    by_cases h : entry.1 = symbol <;> simp [put, find?, h, ih]

theorem find?_put_other (r : Register α) {symbol other : String} (new : α) (h : other ≠ symbol) :
    find? (put r symbol new) other = find? r other := by
  induction r with
  | nil => simp [put, find?, h.symm]
  | cons entry rest ih =>
    by_cases hk : entry.1 = symbol
    · have : symbol ≠ other := h.symm
      simp [put, find?, hk, this]
    · by_cases ho : entry.1 = other <;> simp [put, find?, hk, ho, ih, h]

theorem find?_remove_same (r : Register α) (symbol : String) :
    find? (remove r symbol) symbol = none := by
  induction r with
  | nil => rfl
  | cons entry rest ih =>
    by_cases h : entry.1 = symbol <;> simp [remove, find?, h, ih]

theorem find?_remove_other (r : Register α) {symbol other : String} (h : other ≠ symbol) :
    find? (remove r symbol) other = find? r other := by
  induction r with
  | nil => rfl
  | cons entry rest ih =>
    by_cases hk : entry.1 = symbol
    · have : symbol ≠ other := h.symm
      simp [remove, find?, hk, ih, this]
    · by_cases ho : entry.1 = other <;> simp [remove, find?, hk, ho, ih, h]

end Register

def ascending (symbols : List String) : List String := symbols.mergeSort (fun a b => a ≤ b)

end PortfolioLab
