import Mathlib.Data.List.Basic

/-!
# Tables

A table that is written out is compared with the function that it tabulates as a whole, which takes
one walk along the table; its entries are then known by their numbers.
-/

namespace Tables

variable {α β : Type*} {g : α → β} {f : ℕ → β} {n i : ℕ}

/-- An entry of a list. -/
theorem apply_getD {table : List α} (h : table.map g = (List.range n).map f) (hi : i < n) (d : α) :
  g (table.getD i d) = f i
  := by
  have hlength : table.length = n := by
    have hlengths := congrArg List.length h
    rwa [List.length_map, List.length_map, List.length_range] at hlengths
  have hentry := congrArg (fun entries => entries[i]?) h
  simp only [List.getElem?_map, List.getElem?_range hi, Option.map_some] at hentry
  rw [← hlength] at hi
  rw [List.getElem?_eq_getElem hi, Option.map_some, Option.some.injEq] at hentry
  rw [List.getD_eq_getElem?_getD, List.getElem?_eq_getElem hi, Option.getD_some, hentry]

/-- An entry of an array. -/
theorem apply_array_getD {table : Array α} (h : table.toList.map g = (List.range n).map f)
    (hi : i < n) (d : α) :
  g (table.getD i d) = f i
  := by
  have hlist := apply_getD h hi d
  rwa [List.getD_eq_getElem?_getD, Array.getElem?_toList,
    ← Array.getD_eq_getD_getElem?] at hlist

end Tables
