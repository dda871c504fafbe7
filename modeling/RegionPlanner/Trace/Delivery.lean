import RegionPlanner.Trace.Decode

/-!
# Traces that arrive in pieces

A trace may be delivered in pieces of any length, with interruptions that are to be ignored, and the
delivery may fail. A word is put together from as many pieces as it needs.
-/

namespace RegionPlanner

/-- What one read of a trace brings. A piece without bytes brings nothing. -/
inductive Delivery where
  | piece (bytes : List UInt8)
  | interrupted
  /-- `early` says that the delivery failed because it had ended too early. -/
  | failure (text : String) (early : Bool := false)
deriving DecidableEq, Repr

namespace Delivery

/-- Fills a word from the deliveries; `got` are the bytes it has so far, fewer than eight. What a piece
holds beyond the word is left for the next one. -/
def pullWord (got : List UInt8) : List Delivery → Pull (List Delivery)
  | [] => .short got.length
  | .interrupted :: rest => pullWord got rest
  | .failure text early :: _ => .failed text early
  | .piece bytes :: rest =>
    let all := got ++ bytes
    if all.length < 8 then pullWord all rest
    else .word (wordOfBytes (all.take 8)) (.piece (all.drop 8) :: rest)

/-- The bytes that come before the first failure. -/
def received : List Delivery → List UInt8
  | [] => []
  | .interrupted :: rest => received rest
  | .failure _ _ :: _ => []
  | .piece bytes :: rest => bytes ++ received rest

instance : WordSource (List Delivery) where
  pull := pullWord []
  size deliveries := (received deliveries).length

end Delivery

end RegionPlanner
