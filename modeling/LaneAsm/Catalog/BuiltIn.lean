import LaneAsm.Catalog

/-!
The targets that come with the program.
-/
namespace LaneAsm

namespace Config

/-- An x86 target with physical registers of some bytes. Two of them for each logical register leave
half as many logical ones; the two last are kept for derived operations. -/
def x86 (level : Level) (levelName width : String) (bytes halves : Nat) : Config :=
  let usable := 16 / halves - 2
  { name := "x86_64-" ++ levelName ++ "-" ++ width
    isa := .x86
    level := level
    levelName := levelName
    physBytes := bytes
    halves := halves
    physical := fun i h => i + 8 * h
    vectorRegs := usable
    tempReg := usable
    baseBits := 64
    addressBits := 64
    pointer := 64
    shortAddress := false
    scratchBase := 5
    scratchOffset := 256
    scratchSize := 2 * bytes
    lanes32 := bytes / 4 * halves
    hostRuns := false
    invalid := none }

/-- A MIPS target, whose registers have sixteen bytes. The name says so if base registers are
narrower than pointers. -/
def mips (isa : Isa) (width : String) (halves pointer base : Nat) : Config :=
  { name := isa.text ++ "-msa-" ++ width ++ (if base < pointer then "-x" ++ toString base else "")
    isa := isa
    level := Level.msa
    levelName := "msa"
    physBytes := 16
    halves := halves
    physical := fun i h => i + 16 * h
    vectorRegs := 14
    tempReg := 14
    baseBits := base
    addressBits := pointer
    pointer := pointer
    shortAddress := false
    scratchBase := 5
    scratchOffset := 256
    scratchSize := 32
    lanes32 := 4 * halves
    hostRuns := false
    invalid := none }

end Config

/-- The catalog of the built-in targets. No host runs their code here, so that listings run on the
reference machine. -/
def Catalog.standard : Catalog :=
  .ofTables
    [.x86 Level.sse2 "sse2" "128" 16 1, .x86 Level.sse2 "sse2" "128x2" 16 2,
      .x86 Level.sse4 "sse4" "128" 16 1, .x86 Level.avx1 "avx1" "256" 32 1,
      .x86 Level.avx2 "avx2" "256" 32 1, .x86 Level.avx2 "avx2" "256x2" 32 2,
      .mips .mips32 "128" 1 32 32, .mips .mips64 "128" 1 64 64, .mips .mips64 "128x2" 2 64 64,
      .mips .mips64 "128" 1 64 32]
    [] [] "x86_64-sse2-128"

end LaneAsm
