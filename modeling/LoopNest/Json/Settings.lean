import LoopNest.Json.Scop
import LoopNest.Optimizer.Basic

/-! A setting that is left out has its standard value. -/

namespace LoopNest.Json

def ofTarget (t : Target) : Json :=
  record [("name", text t.name), ("l1_size", int t.l1Size),
    ("l1_associativity", int t.l1Associativity), ("l2_size", int t.l2Size),
    ("l2_associativity", int t.l2Associativity), ("simd_width", int t.simdWidth),
    ("vector_register_bits", int t.vectorRegisterBits), ("fma_latency", int t.fmaLatency),
    ("fma_throughput", int t.fmaThroughput)]

def ofTilingLevel (level : TilingLevel) : Json :=
  record [("enabled", bool level.enabled), ("tile_sizes", ofInts level.sizes),
    ("default_tile_size", int level.default)]

def ofConfig (c : Config) : Json :=
  record [("enable_tiling", bool c.enableTiling), ("first_level", ofTilingLevel c.firstLevel),
    ("second_level", ofTilingLevel c.secondLevel),
    ("register_tiling", ofTilingLevel c.registerTiling),
    ("enable_vectorization", bool c.enableVectorization), ("prevector_width", int c.vectorWidth),
    ("enable_pattern_matching", bool c.enablePatternMatching)]

def ofTilingStage (stage : TilingStage) : Json :=
  record [("identifier", text stage.label), ("tile_sizes", ofInts stage.sizes),
    ("default_tile_size", int stage.default), ("register", bool stage.register)]

def ofMatMulShape (s : MatMulShape) : Json :=
  record [("stmt", nat s.stmt), ("reduction", nat s.reduction), ("other", nat s.other),
    ("contiguous", nat s.contiguous)]

def ofMicroKernel (k : MicroKernel) : Json := record [("mr", int k.mr), ("nr", int k.nr)]

def ofMacroKernel (k : MacroKernel) : Json :=
  record [("kc", int k.kc), ("mc", int k.mc), ("nc", int k.nc)]

def ofAction : Action → Json
  | .notTileable => text "NotTileable"
  | .singleMember => text "SingleMember"
  | .matMul shape micro blocks => record [("MatMul", record [("shape", ofMatMulShape shape),
      ("micro", ofMicroKernel micro), ("macro_kernel", ofMacroKernel blocks)])]
  | .standard stages member width => record [("Standard", record [("tiling", ofTexts stages),
      ("vectorized_member", ofOption nat member), ("vector_width", ofOption int width)])]

def ofDecision (d : Decision) : Json :=
  record [("node", nat d.node), ("members", nat d.members), ("statements", ofNats d.statements),
    ("action", ofAction d.action)]

def ofDecisions (ds : List Decision) : Json := array (ds.map ofDecision)

namespace Reader

def target : Reader Target
  | depth + 1, j => do
    let m ← j.members ["name", "l1_size", "l1_associativity", "l2_size", "l2_associativity",
      "simd_width", "vector_register_bits", "fma_latency", "fma_throughput"]
    let d := Target.generic
    let name ← m.withDefault "name" text d.name depth
    let l1Size ← m.withDefault "l1_size" int d.l1Size depth
    let l1Associativity ← m.withDefault "l1_associativity" int d.l1Associativity depth
    let l2Size ← m.withDefault "l2_size" int d.l2Size depth
    let l2Associativity ← m.withDefault "l2_associativity" int d.l2Associativity depth
    let simdWidth ← m.withDefault "simd_width" int d.simdWidth depth
    let vectorRegisterBits ← m.withDefault "vector_register_bits" int d.vectorRegisterBits depth
    let fmaLatency ← m.withDefault "fma_latency" int d.fmaLatency depth
    let fmaThroughput ← m.withDefault "fma_throughput" int d.fmaThroughput depth
    return ⟨name, l1Size, l1Associativity, l2Size, l2Associativity, simdWidth, vectorRegisterBits,
      fmaLatency, fmaThroughput⟩
  | 0, _ => none

/-- What a level leaves out has the standard value of a level, whichever level it is. -/
def tilingLevel : Reader TilingLevel
  | depth + 1, j => do
    let m ← j.members ["enabled", "tile_sizes", "default_tile_size"]
    let d := TilingLevel.standard
    let enabled ← m.withDefault "enabled" bool d.enabled depth
    let sizes ← m.withDefault "tile_sizes" (list int) d.sizes depth
    let size ← m.withDefault "default_tile_size" int d.default depth
    return ⟨enabled, sizes, size⟩
  | 0, _ => none

def config : Reader Config
  | depth + 1, j => do
    let m ← j.members ["enable_tiling", "first_level", "second_level", "register_tiling",
      "enable_vectorization", "prevector_width", "enable_pattern_matching"]
    let d := Config.standard
    let enableTiling ← m.withDefault "enable_tiling" bool d.enableTiling depth
    let firstLevel ← m.withDefault "first_level" tilingLevel d.firstLevel depth
    let secondLevel ← m.withDefault "second_level" tilingLevel d.secondLevel depth
    let registerTiling ← m.withDefault "register_tiling" tilingLevel d.registerTiling depth
    let enableVectorization ← m.withDefault "enable_vectorization" bool d.enableVectorization depth
    let vectorWidth ← m.withDefault "prevector_width" int d.vectorWidth depth
    let enablePatternMatching ←
      m.withDefault "enable_pattern_matching" bool d.enablePatternMatching depth
    return ⟨enableTiling, firstLevel, secondLevel, registerTiling, enableVectorization, vectorWidth,
      enablePatternMatching⟩
  | 0, _ => none

def tilingStage : Reader TilingStage
  | depth + 1, j => do
    let m ← j.members ["identifier", "tile_sizes", "default_tile_size", "register"]
    let label ← m.required "identifier" text depth
    let sizes ← m.required "tile_sizes" (list int) depth
    let size ← m.required "default_tile_size" int depth
    let register ← m.required "register" bool depth
    return ⟨label, sizes, size, register⟩
  | 0, _ => none

def microKernel : Reader MicroKernel
  | depth + 1, j => do
    let m ← j.members ["mr", "nr"]
    let mr ← m.required "mr" int depth
    let nr ← m.required "nr" int depth
    return ⟨mr, nr⟩
  | 0, _ => none

end Reader

end LoopNest.Json

namespace LoopNest

def Config.load? (text : String) : Option Config := Json.readText? Json.Reader.config text

def Target.load? (text : String) : Option Target := Json.readText? Json.Reader.target text

end LoopNest
