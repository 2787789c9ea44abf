import Zusat.Cadical.Effects

/-! # A search that was left

When a check of CaDiCaL's own fails, the call that searched raises in the middle and the solver stays in
the state SOLVING. Every function of the API that changes anything asks for a valid state first, so from
there on nothing changes: `Stands` holds across every one of them. -/

namespace Zusat
open Foundations Foundations.Prog
set_option autoImplicit false

namespace Cadical

/-- A solver left in a search stays as it is. -/
def Stands (c c' : Cadical) : Prop := c.state = .solving → c' = c

theorem along_stands : Along Stands (fun _ : RError => Stands) :=
  .of_preorder (fun _ _ => rfl) fun h h' hs => by
    obtain rfl := h hs
    exact h' hs

/-- Nothing after the check of the state is reached. -/
theorem run_validState_solving {c : Cadical} (hs : c.state = .solving) {α : Type} (fn : String)
    (f : Unit → CadicalM α) : (requireValidState fn >>= f).run c = (.error (invalidState fn), c) := by
  rw [run_bind, run_requireValidState_solving hs, andThen_error]

theorem stands_requireValidState {α : Type} (fn : String) (f : Unit → CadicalM α) :
    Respects Stands (requireValidState fn >>= f) :=
  respects_of_snd fun _ hs => congrArg Prod.snd (run_validState_solving hs fn f)

theorem stands_requireReadyState {α : Type} (fn : String) (f : Unit → CadicalM α) :
    Respects Stands (requireReadyState fn >>= f) := by
  refine respects_of_snd fun c hs => ?_
  rw [run_bind, requireReadyState, run_validState_solving hs, andThen_error]

theorem stands_add (l : ℤ) : Respects Stands (add l) := stands_requireValidState _ _

theorem stands_constrain (l : ℤ) : Respects Stands (constrain l) := stands_requireValidState _ _

theorem stands_assume (l : ℤ) : Respects Stands (assume l) := stands_requireValidState _ _

theorem stands_declareMoreVariables (n : ℕ) : Respects Stands (declareMoreVariables n) :=
  stands_requireValidState _ _

theorem stands_solve (ask : Oracle) : Respects Stands (solve ask) := stands_requireReadyState _ _

theorem stands_simplify (ask : Oracle) : Respects Stands (simplify ask) := stands_requireReadyState _ _

theorem stands_set (name : String) (value : ℤ) : Respects Stands (set name value) :=
  stands_requireValidState _ _

theorem stands_limit (name : String) (value : ℤ) : Respects Stands (limit name value) :=
  stands_requireValidState _ _

theorem stands_traceProof (file : ℕ) (name : String) : Respects Stands (traceProof file name) :=
  stands_requireValidState _ _

theorem stands_closeProofTrace : Respects Stands closeProofTrace := stands_requireValidState _ _

/-! ## The refusals -/

section Refusals
variable {c : Cadical}

theorem run_add_solving (hs : c.state = .solving) (l : ℤ) :
    (add l).run c = (.error (invalidState "add"), c) := run_validState_solving hs _ _

theorem run_constrain_solving (hs : c.state = .solving) (l : ℤ) :
    (constrain l).run c = (.error (invalidState "constrain"), c) := run_validState_solving hs _ _

theorem run_assume_solving (hs : c.state = .solving) (l : ℤ) :
    (assume l).run c = (.error (invalidState "assume"), c) := run_validState_solving hs _ _

theorem run_declareMoreVariables_solving (hs : c.state = .solving) (n : ℕ) :
    (declareMoreVariables n).run c = (.error (invalidState "declare_more_variables"), c) :=
  run_validState_solving hs _ _

theorem run_closeProofTrace_solving (hs : c.state = .solving) :
    closeProofTrace.run c = (.error (invalidState "close_proof_trace"), c) := run_validState_solving hs _ _

theorem run_setTerminate_solving (hs : c.state = .solving) :
    setTerminate.run c = (.error (invalidState "connect_terminator"), c) :=
  run_requireValidState_solving hs _

end Refusals

end Cadical
end Zusat
