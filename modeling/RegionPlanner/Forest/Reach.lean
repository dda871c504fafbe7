/-!
# Breadth-first search

`search next count start` visits the places that can be reached from `start` by steps `next`, each once and
nearest first. A step may fail; the search then ends with the place whose step failed as the last one
visited. Places are numbers below `count`.
-/

namespace RegionPlanner

/-- Places visited, in order, and the failure that ended the search. -/
structure Reach (ε : Type) where
  visited : List Nat
  failure : Option ε
deriving Repr

namespace Reach

/-- Places found so far, in the order they were found, and whether each place was. -/
structure Found where
  order : Array Nat
  known : Array Bool
deriving Repr

def Found.add (found : Found) (place : Nat) : Found :=
  match found.known[place]? with
  | some false => ⟨found.order.push place, found.known.setIfInBounds place true⟩
  | _ => found

def Found.start (count start : Nat) : Found :=
  Found.add ⟨#[], Array.replicate count false⟩ start

/-- Visits the found places from position `done` on; each visit may find more. -/
def visit {ε : Type} (next : Nat → Except ε (List Nat)) : Nat → Nat → Found → Reach ε
  | 0, done, found => ⟨(found.order.take done).toList, none⟩
  | fuel + 1, done, found =>
    match found.order[done]? with
    | none => ⟨found.order.toList, none⟩
    | some place =>
      match next place with
      | .error failure => ⟨(found.order.take (done + 1)).toList, some failure⟩
      | .ok places => visit next fuel (done + 1) (places.foldl Found.add found)

end Reach

/-- What can be reached from `start`. No place is found twice, so `count` visits suffice. -/
def search {ε : Type} (next : Nat → Except ε (List Nat)) (count start : Nat) : Reach ε :=
  Reach.visit next count 0 (Reach.Found.start count start)

end RegionPlanner
