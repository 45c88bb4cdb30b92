/-! Target machines. -/

namespace LoopNest

structure Target where
  name : String
  /-- In bytes. -/
  l1Size : Int
  l1Associativity : Int
  /-- In bytes. -/
  l2Size : Int
  l2Associativity : Int
  /-- How many instances a vector loop runs at once. -/
  simdWidth : Int
  vectorRegisterBits : Int
  /-- Cycles until the result of a fused multiplication and addition can be used. -/
  fmaLatency : Int
  /-- Fused multiplications and additions started in one cycle. -/
  fmaThroughput : Int
  deriving DecidableEq, Repr

namespace Target

def generic : Target where
  name := "generic"
  l1Size := 32 * 1024
  l1Associativity := 8
  l2Size := 256 * 1024
  l2Associativity := 8
  simdWidth := 4
  vectorRegisterBits := 128
  fmaLatency := 8
  fmaThroughput := 1

def avx2 : Target :=
  { generic with
    name := "avx2"
    l2Associativity := 4
    simdWidth := 8
    vectorRegisterBits := 256
    fmaLatency := 5
    fmaThroughput := 2 }

def avx512 : Target :=
  { generic with
    name := "avx512"
    l1Size := 48 * 1024
    l1Associativity := 12
    l2Size := 2 * 1024 * 1024
    l2Associativity := 16
    simdWidth := 16
    vectorRegisterBits := 512
    fmaLatency := 4
    fmaThroughput := 2 }

def byName? (name : String) : Option Target :=
  [generic, avx2, avx512].find? (·.name = name)

end Target

end LoopNest
