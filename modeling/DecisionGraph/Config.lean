/-!
# Settings

`GrowthBound` is a double kept as its bit pattern, so that what was set is what is read back, not a
number among others.
-/

namespace DecisionGraph

/-- A factor, as the bit pattern of a double. Any pattern will do, not-a-number included. -/
structure GrowthBound where
  bits : UInt64
deriving DecidableEq, Repr

namespace GrowthBound

def ofFloat (x : Float) : GrowthBound := ⟨x.toBits⟩

def toFloat (b : GrowthBound) : Float := Float.ofBits b.bits

/-- Whether a size lies beyond the bound times the best size. It does not if the product is not a
number. -/
def exceeded (b : GrowthBound) (size best : Nat) : Bool :=
  b.toFloat * best.toUInt64.toFloat < size.toUInt64.toFloat

end GrowthBound

/-- How the tables start and how far sifting goes. -/
structure Config where
  /-- The buckets with which the table of each variable starts, and below which it never falls. -/
  initialBuckets : Nat
  /-- Sifting stops moving a variable in one direction once the graph grows beyond this factor
  times the best size so far. -/
  maxGrowth : GrowthBound
deriving Repr

namespace Config

/-- Four buckets, and growth by a fifth. -/
def standard : Config where
  initialBuckets := 4
  maxGrowth := .ofFloat 1.2

/-- A table has at least one bucket. -/
def withInitialBuckets (c : Config) (buckets : Nat) : Config :=
  { c with initialBuckets := max buckets 1 }

def withMaxGrowth (c : Config) (bound : GrowthBound) : Config := { c with maxGrowth := bound }

/-- Settings agree if their numbers do: a factor that is not a number agrees with nothing. -/
instance : BEq Config where
  beq c d :=
    c.initialBuckets == d.initialBuckets && c.maxGrowth.toFloat == d.maxGrowth.toFloat

end Config

end DecisionGraph
