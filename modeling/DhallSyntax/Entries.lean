/-!
Lists of entries, each a key and its value. A key that is given again keeps its first place and has
its last value.
-/

namespace DhallSyntax.Entries

variable {κ α : Type} (same : κ → κ → Bool)

/-- Sets the value of a key. A key that is there stays as it is, where it is. -/
def insert (entries : List (κ × α)) (key : κ) (value : α) : List (κ × α) :=
  if entries.any fun entry => same entry.1 key then
    entries.map fun entry => if same entry.1 key then (entry.1, value) else entry
  else entries ++ [(key, value)]

/-- The entries in the order of their first keys, each with the last value given for its key. -/
def distinct (entries : List (κ × α)) : List (κ × α) :=
  entries.foldl (fun kept entry => insert same kept entry.1 entry.2) []

end DhallSyntax.Entries
