import CapaX.Address
import CapaX.Collections.OrdMap
import CapaX.Features

/-
  The features of a sample as the drivers read them (`freeze.rs`): a tree of units, each with its
  own located features, the units of a level keyed and visited in address order. Base address,
  hashes and the names of processes and calls are no part of matching.
-/

namespace CapaX

open Collections

abbrev Located := Address × Feature

structure InstructionFeatures where
  features : List Located

structure BasicBlockFeatures where
  features : List Located
  instructions : OrdMap Address InstructionFeatures

structure FunctionFeatures where
  features : List Located
  basicBlocks : OrdMap Address BasicBlockFeatures

structure StaticFeatures where
  globalFeatures : List Feature
  fileFeatures : List Located
  functions : OrdMap Address FunctionFeatures

structure CallFeatures where
  features : List Located

structure ThreadFeatures where
  features : List Located
  calls : OrdMap Address CallFeatures

structure ProcessFeatures where
  features : List Located
  threads : OrdMap Address ThreadFeatures

structure DynamicFeatures where
  globalFeatures : List Feature
  fileFeatures : List Located
  processes : OrdMap Address ProcessFeatures

end CapaX
