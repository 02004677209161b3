import LaneAsm.Instances

/-!
Conditions of jumps.
-/
namespace LaneAsm

/-- When a jump on a mask is taken: when no lane is set, or when every lane is. -/
inductive MaskCond where
  | none
  | full
deriving Repr, DecidableEq, Inhabited

def MaskCond.text : MaskCond → String
  | .none => "NONE"
  | .full => "FULL"

/-- When a jump on two base values is taken. `other` stands for the condition numbers without a
meaning. -/
inductive Cond where
  | eq
  | ne
  | ltu
  | leu
  | gtu
  | geu
  | lts
  | les
  | gts
  | ges
  | other (code : UInt8)
deriving Repr, DecidableEq, Inhabited

namespace Cond

/-- The conditions with a meaning, in the order of their numbers. -/
def named : List Cond := [.eq, .ne, .ltu, .leu, .gtu, .geu, .lts, .les, .gts, .ges]

/-- The condition of a number. -/
def ofCode (code : UInt8) : Cond := (named[code.toNat]?).getD (.other code)

/-- The number of a condition. -/
def code : Cond → Nat
  | .other code => code.toNat
  | c => named.idxOf c

def text : Cond → String
  | .eq => "EQ_x"
  | .ne => "NE_x"
  | .ltu => "LT_u"
  | .leu => "LE_u"
  | .gtu => "GT_u"
  | .geu => "GE_u"
  | .lts => "LT_n"
  | .les => "LE_n"
  | .gts => "GT_n"
  | .ges => "GE_n"
  | .other _ => "cond?"

/-- The condition of a text. -/
def ofText? (s : String) : Option Cond := named.find? (·.text == s)

end Cond

end LaneAsm
