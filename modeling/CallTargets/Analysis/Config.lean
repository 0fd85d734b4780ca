/-!
# Settings of the analysis

How a store through an ambiguous address writes, how many functions may be under
analysis at once, and which callees are never looked into.
-/

namespace CallTargets

inductive StoreUpdate where
  /-- Every store overwrites all of its possible targets. -/
  | strong
  /-- A store overwrites its target only when the address has a single pointee,
  and otherwise adds to each possible target. -/
  | weakOnAmbiguity
deriving DecidableEq, Repr

structure Config where
  storeUpdate : StoreUpdate := .weakOnAmbiguity
  /-- The largest number of functions under analysis at once. -/
  maxCallDepth : Nat := 64
  /-- Functions whose names start with this text are intrinsic: they are never
  entered and never reported. -/
  intrinsicStem : String := "llvm."
deriving DecidableEq, Repr

namespace Config

/-- Whether a function name marks an intrinsic. -/
def marksIntrinsic (c : Config) (name : String) : Bool :=
  c.intrinsicStem.toList.isPrefixOf name.toList

end Config

end CallTargets
