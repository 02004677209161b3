/-!
Instances that are the same wherever the library is used: powers of numbers and hashes of characters
are those of the core library, whatever is imported beside it.
-/
namespace LaneAsm

@[default_instance 20000]
instance (priority := 20000) powOfNatPow {α : Type} [NatPow α] : Pow α Nat := instPowNat

instance (priority := 20000) hashableChar : Hashable Char := instHashableChar

end LaneAsm
