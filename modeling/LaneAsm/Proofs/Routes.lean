import LaneAsm.Assembler.Route

/-!
Routes to comparators. A route is chosen only where the backend offers what it takes
(`Route.justified`), and every primitive on it is one of four parts: a load into the temporary, a
minimum or maximum there, a native comparator, and a complement of the destination (`Route.Part`).
-/
namespace LaneAsm

namespace Op

theorem isCompare_swapped (c : Op) : c.swapped.isCompare = c.isCompare := by cases c <;> rfl

theorem isCompare_complement (c : Op) : c.complement.isCompare = c.isCompare := by cases c <;> rfl

theorem valid_of_applies {op : Op} {e : Elem} (applies : op.applies e = true) : e.valid = true := by
  unfold Op.applies at applies
  exact (Bool.and_eq_true_iff.mp applies).1

end Op

namespace Route

/-- What a backend has to offer for a route to a comparator. -/
inductive Justified (cap : Capability) (c : Op) (e : Elem) : Route → Prop where
  | direct (native : cap.nativeCompare c e = true) : Justified cap c e .direct
  | swap (native : cap.nativeCompare c.swapped e = true) : Justified cap c e .swap
  | notEqual (unequal : c = .cne) (native : cap.nativeCompare .ceq e = true) :
    Justified cap c e .notEqual
  | notDirect (integer : e.isFloat = false) (native : cap.nativeCompare c.complement e = true) :
    Justified cap c e .notDirect
  | notSwap (integer : e.isFloat = false)
    (native : cap.nativeCompare c.complement.swapped e = true) : Justified cap c e .notSwap
  | minMax (integer : e.isFloat = false) (order : c = .clt ∨ c = .cgt ∨ c = .cle ∨ c = .cge)
    (native : cap.nativeCompare .ceq e = true) (minimum : cap.supports .min e ≠ .unsupported)
    (maximum : cap.supports .max e ≠ .unsupported) : Justified cap c e .minMax

theorem defined_of_routed {cap : Capability} {c : Op} {e : Elem} (routed : cap.route c e ≠ .none) :
    c.isCompare = true ∧ e.valid = true := by
  unfold Capability.route at routed
  split at routed
  · contradiction
  · rename_i defined
    simp only [Bool.not_eq_true', Bool.or_eq_true, not_or, Bool.not_eq_false] at defined
    exact ⟨defined.1, Op.valid_of_applies defined.2⟩

/-- A route is chosen only where the backend offers what it takes. -/
theorem justified {cap : Capability} {c : Op} {e : Elem} (routed : cap.route c e ≠ .none) :
    Justified cap c e (cap.route c e) := by
  have compare := (defined_of_routed routed).1
  generalize chosen : cap.route c e = r at routed ⊢
  unfold Capability.route at chosen
  dsimp only at chosen
  -- the cases follow the order in which routes are tried; without one, `chosen` says `none`
  split at chosen
  · exact absurd chosen.symm routed
  · split at chosen
    · rename_i native
      exact chosen ▸ .direct native
    · rename_i missing
      split at chosen
      · rename_i unequal
        split at chosen
        · rename_i native
          exact chosen ▸ .notEqual unequal native
        · exact absurd chosen.symm routed
      · rename_i order
        split at chosen
        · rename_i native
          exact chosen ▸ .swap (Bool.and_eq_true_iff.mp native).2
        · split at chosen
          · exact absurd chosen.symm routed
          · rename_i integer
            have integer : e.isFloat = false := by simpa using integer
            split at chosen
            · rename_i native
              exact chosen ▸ .notDirect integer native
            · split at chosen
              · rename_i native
                exact chosen ▸ .notSwap integer (Bool.and_eq_true_iff.mp native).2
              · split at chosen
                · rename_i offered
                  simp only [Bool.and_eq_true, decide_eq_true_eq] at offered
                  obtain ⟨⟨native, minimum⟩, maximum⟩ := offered
                  have unlike : c ≠ .ceq := by
                    rintro rfl
                    exact missing native
                  refine chosen ▸ .minMax integer ?_ native minimum maximum
                  cases c <;> simp_all [Op.isCompare]
                · exact absurd chosen.symm routed

/-- Floats take no route with a complement of an ordered comparator. -/
theorem float_route {cap : Capability} {c : Op} {e : Elem} (float : e.isFloat = true) :
    cap.route c e ≠ .notDirect ∧ cap.route c e ≠ .notSwap ∧ cap.route c e ≠ .minMax := by
  refine ⟨?_, ?_, ?_⟩
  all_goals
    intro chosen
    have routed : cap.route c e ≠ .none := by simp [chosen]
    have reason := chosen ▸ justified routed
    cases reason
    simp_all

/-- What a comparator is derived with. The parts leave what they compute in the destination or in the
temporary, and they take their sources from there or from the comparison. -/
inductive Part (cap : Capability) (c : Op) (e : Elem) (d x : Reg) (y : Operand) (t : Reg) :
    Primitive → Prop where
  | load : Part cap c e d x y t (.move t y)
  | extreme {op : Op} (bound : op = .min ∨ op = .max) (supported : cap.supports op e ≠ .unsupported) :
    Part cap c e d x y t (.arith op e t x y)
  | compare {k : Op} {a : Reg} {b : Operand} (orders : c.isCompare = true → k.isCompare = true)
    (native : cap.nativeCompare k e = true) (left : a = x ∨ a = t ∨ y = .reg a)
    (right : b = y ∨ b = .reg x) : Part cap c e d x y t (.compare k e d a b)
  | complement : Part cap c e d x y t (.not d d)

section
variable {cap : Capability} {c : Op} {e : Elem} {d x : Reg} {y : Operand} {t : Reg}

theorem part_of_exchanged {k : Op} (orders : c.isCompare = true → k.isCompare = true)
    (native : cap.nativeCompare k e = true) :
    ∀ p ∈ exchanged k e d x y t, Part cap c e d x y t p := by
  cases y with
  | reg y =>
    exact List.forall_mem_singleton.2 (.compare orders native (.inr (.inr rfl)) (.inr rfl))
  | mem m | imm i =>
    refine List.forall_mem_cons.2 ⟨.load, List.forall_mem_singleton.2 ?_⟩
    exact .compare orders native (.inr (.inl rfl)) (.inr rfl)

/-- A justified route is made of such parts. -/
theorem Justified.part {r : Route} (reason : Justified cap c e r) :
    ∀ p ∈ r.primitives c e d x y t, Part cap c e d x y t p := by
  have complemented : ∀ p ∈ [Primitive.not d d], Part cap c e d x y t p :=
    List.forall_mem_singleton.2 .complement
  have swapped (compare : c.isCompare = true) : c.swapped.isCompare = true :=
    (Op.isCompare_swapped c).trans compare
  have complementary (compare : c.isCompare = true) : c.complement.isCompare = true :=
    (Op.isCompare_complement c).trans compare
  cases reason with
  | direct native => exact List.forall_mem_singleton.2 (.compare id native (.inl rfl) (.inl rfl))
  | swap native => exact part_of_exchanged swapped native
  | notEqual _ native =>
    exact List.forall_mem_cons.2 ⟨.compare (fun _ => rfl) native (.inl rfl) (.inl rfl), complemented⟩
  | notDirect _ native =>
    exact List.forall_mem_cons.2 ⟨.compare complementary native (.inl rfl) (.inl rfl), complemented⟩
  | notSwap _ native =>
    refine List.forall_mem_append.2 ⟨part_of_exchanged (fun compare => ?_) native, complemented⟩
    exact (Op.isCompare_swapped _).trans (complementary compare)
  | minMax _ _ native minimum maximum =>
    refine List.forall_mem_append.2 ⟨List.forall_mem_cons.2 ⟨?_, ?_⟩, ?_⟩
    · split
      · exact .extreme (.inr rfl) maximum
      · exact .extreme (.inl rfl) minimum
    · refine List.forall_mem_singleton.2 (.compare (fun _ => rfl) native (.inr (.inl rfl)) ?_)
      split
      · exact .inr rfl
      · exact .inl rfl
    · split
      · exact complemented
      · exact List.forall_mem_nil _

/-- Every comparator on a route is native. -/
theorem Justified.native_of_mem {r : Route} (reason : Justified cap c e r) {k : Op} {f : Elem}
    {d' x' : Reg} {y' : Operand} (member : .compare k f d' x' y' ∈ r.primitives c e d x y t) :
    cap.nativeCompare k f = true := by
  cases reason.part _ member with
  | compare orders native left right => exact native

end

end Route

end LaneAsm
