/-!
Lists of named values sorted by name, with one value for each name.
-/
namespace BucketOverflow.Fields

/-- Puts a value under its name, in place of one that is there. -/
def insert (name : String) (value : β) : List (String × β) → List (String × β)
  | [] => [(name, value)]
  | (k, v) :: rest =>
    if name = k then (name, value) :: rest
    else if name < k then (name, value) :: (k, v) :: rest
    else (k, v) :: insert name value rest

/-- Puts values one after the other, so that the last of a name stays. -/
def insertAll (values fields : List (String × β)) : List (String × β) :=
  values.foldl (fun acc f => insert f.1 f.2 acc) fields

end BucketOverflow.Fields
