import LoopNest.Tiling.Stage

/-! Configuration of the optimizer. -/

namespace LoopNest

structure TilingLevel where
  enabled : Bool
  /-- By member, from the outermost in. -/
  sizes : List Int
  /-- For members that have no size of their own. -/
  default : Int
  deriving DecidableEq, Repr

def TilingLevel.standard : TilingLevel := ⟨true, [], 32⟩

structure Config where
  /-- If not set, schedules stay as they are. -/
  enableTiling : Bool
  firstLevel : TilingLevel
  secondLevel : TilingLevel
  registerTiling : TilingLevel
  enableVectorization : Bool
  /-- The vector width where no target is given. -/
  vectorWidth : Int
  enablePatternMatching : Bool
  deriving DecidableEq, Repr

namespace Config

def standard : Config where
  enableTiling := true
  firstLevel := ⟨true, [], 32⟩
  secondLevel := ⟨false, [], 16⟩
  registerTiling := ⟨false, [], 2⟩
  enableVectorization := true
  vectorWidth := 4
  enablePatternMatching := true

def noTiling : Config := { standard with enableTiling := false }

def forLocality : Config :=
  { standard with
    secondLevel := ⟨true, [], 16⟩
    registerTiling := ⟨true, [], 2⟩ }

def stages (config : Config) : List TilingStage :=
  (if config.firstLevel.enabled then
    [.cache "1st level tiling" config.firstLevel.sizes config.firstLevel.default] else []) ++
  (if config.secondLevel.enabled then
    [.cache "2nd level tiling" config.secondLevel.sizes config.secondLevel.default] else []) ++
  (if config.registerTiling.enabled then
    [.forRegisters config.registerTiling.sizes config.registerTiling.default] else [])

end Config

end LoopNest
