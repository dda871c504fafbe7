import RegionPlanner.Number.Quantity

/-!
# Target machines
-/

namespace RegionPlanner

structure Target where
  cores : UInt32
  /-- Cost of an instance of a region that runs in parallel, in units of work. -/
  overhead : UInt32
  clockMHz : Option UInt32 := none
  bandwidthMB : Option UInt32 := none
  cacheMB : Option UInt32 := none
deriving DecidableEq, Repr, Inhabited

namespace Target

/-- The cores that a region of the given self-parallelism can use. There is at least one. -/
def usableCores {α : Type} [Quantity α] (target : Target) (selfParallelism : α) : α :=
  Quantity.smaller (Quantity.count (max target.cores 1).toNat) selfParallelism

/-- What is not given is not written. -/
def text (target : Target) : String :=
  let part (label unit : String) : Option UInt32 → String
    | some value => s!", {label} = {value} {unit}"
    | none => ""
  s!"NumCore = {target.cores}, Overhead = {target.overhead}" ++ part "Clock" "MHz" target.clockMHz ++
    part "Bandwidth" "MB/s" target.bandwidthMB ++ part "Cache" "MB" target.cacheMB

end Target

end RegionPlanner
