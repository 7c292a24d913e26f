/-! Names in sorted order, by code points, and dictionaries kept in that order. A dictionary is a list of
pairs whose names strictly increase, so that two dictionaries with the same entries are equal. -/

namespace Parlance

/-- The names of a list in increasing order. -/
def sortNames (names : List String) : List String := names.mergeSort fun a b => !decide (b < a)

/-- A dictionary sorted by name. -/
abbrev Entries (α : Type) := List (String × α)

namespace Entries

variable {α : Type}

/-- The entry of a name. -/
def get? (name : String) : Entries α → Option α
  | [] => none
  | (k, v) :: rest => if k = name then some v else get? name rest

/-- Sets the entry of a name, keeping the order. -/
def put (name : String) (value : α) : Entries α → Entries α
  | [] => [(name, value)]
  | (k, v) :: rest =>
      if k = name then (name, value) :: rest
      else if name < k then (name, value) :: (k, v) :: rest
      else (k, v) :: put name value rest

/-- Takes the entry of a name away. -/
def erase (name : String) (entries : Entries α) : Entries α := entries.filter (·.1 ≠ name)

def names (entries : Entries α) : List String := entries.map (·.1)

variable {name key : String} {value : α} {entries : Entries α}

theorem get?_put : (entries.put name value).get? key = if key = name then some value else entries.get? key := by
  induction entries with
  | nil =>
      by_cases hkey : key = name
      · simp [put, get?, hkey]
      · simp [put, get?, hkey, Ne.symm hkey]
  | cons entry entries ih =>
      unfold put
      split
      · next hname =>
        by_cases hkey : key = name
        · simp [get?, hkey]
        · simp [get?, hkey, Ne.symm hkey, hname]
      split
      · by_cases hkey : key = name
        · simp [get?, hkey]
        · simp [get?, hkey, Ne.symm hkey]
      · next hname _ =>
        rw [get?, get?, ih]
        by_cases hkey : key = name
        · rw [if_pos hkey, if_pos hkey, if_neg (hkey ▸ hname)]
        · rw [if_neg hkey, if_neg hkey]

theorem get?_erase : (entries.erase name).get? key = if key = name then none else entries.get? key := by
  induction entries with
  | nil => simp [erase, get?]
  | cons entry entries ih =>
      unfold erase at ih ⊢
      rw [List.filter_cons]
      by_cases hentry : entry.1 = name
      · rw [if_neg (by simpa using hentry), ih, get?]
        by_cases hkey : key = name
        · rw [if_pos hkey, if_pos hkey]
        · rw [if_neg hkey, if_neg hkey, if_neg fun heq => hkey (heq.symm.trans hentry)]
      · rw [if_pos (by simpa using hentry), get?, ih, get?]
        by_cases hkey : key = name
        · rw [if_pos hkey, if_pos hkey, if_neg (hkey ▸ hentry)]
        · rw [if_neg hkey, if_neg hkey]

end Entries

end Parlance
