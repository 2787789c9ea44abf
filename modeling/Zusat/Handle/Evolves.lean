import Zusat.Cadical.Evolves
import Zusat.Handle.Calls

/-! # How the entry points change the solver

`Cadical.Evolves` carried through `zusat.c`, one lemma per entry point. -/

namespace Zusat
open Foundations Foundations.Prog
set_option autoImplicit false

namespace Handle
open Cadical

/-- The handle's solver has changed as `Cadical.Evolves` says. -/
def Evolves (K L : ℤ → Prop) (N : String → Prop) (h h' : Handle) : Prop :=
  Cadical.Evolves K L N h.solver h'.solver

section Entries
variable {K L : ℤ → Prop} {N : String → Prop}

theorem along_evolves (K L : ℤ → Prop) (N : String → Prop) :
    Along (Evolves K L N) (fun _ : RError => Evolves K L N) :=
  .of_preorder (fun h => (Cadical.along_evolves K L N).refl h.solver)
    (fun h h' => (Cadical.along_evolves K L N).trans h h')

theorem evolves_refl (h : Handle) : Evolves K L N h h := (along_evolves K L N).refl h

theorem evolves_call {α : Type} {m : CadicalM α} (hm : Respects (Cadical.Evolves K L N) m) :
    Respects (Evolves K L N) (call m) :=
  Moves.within hm (fun _ _ h => h) (fun _ _ _ h => h)

theorem evolves_looks {α : Type} {m : HandleM α} (hm : Looks m) : Respects (Evolves K L N) m :=
  respects_of_snd fun h => by
    rw [hm.snd h]
    exact evolves_refl h

theorem evolves_ofExcept {α : Type} (x : Except RError α) :
    Respects (Evolves K L N) (ofExcept x : HandleM α) := evolves_looks (looks_ofExcept x)

theorem evolves_zusatAddClause {p : List ℤ} (hp : ∀ l ∈ p, K l) :
    Respects (Evolves K L N) (zusatAddClause (.int p)) := by
  have law := along_evolves K L N
  exact Moves.bindExcept (fun _ h => nomatch h) fun _ h => Except.ok.inj h ▸
    (law.bind (evolves_ofExcept _) fun _ =>
    law.bind (Moves.modify evolves_refl) fun _ =>
      law.bind (law.each fun l hl => evolves_call (evolves_add (.inr (hp l hl)))) fun _ =>
        evolves_call (evolves_add (.inl rfl)))

theorem evolves_zusatConstrain {p : List ℤ} (hp : ∀ l ∈ p, L l) :
    Respects (Evolves K L N) (zusatConstrain (.int p)) := by
  have law := along_evolves K L N
  exact Moves.bindExcept (fun _ h => nomatch h) fun _ h => Except.ok.inj h ▸
    (law.bind (evolves_ofExcept _) fun _ =>
    law.bind (Moves.modify evolves_refl) fun _ =>
      law.bind (law.each fun l hl => evolves_call (evolves_constrain (.inr (hp l hl)))) fun _ =>
        law.bind (evolves_call (evolves_constrain (.inl rfl))) fun _ =>
          Moves.modify evolves_refl)

theorem evolves_search (what : String) {m : CadicalM Answer}
    (hm : Respects (Cadical.Evolves K L N) m) : Respects (Evolves K L N) (search what m) := by
  have law := along_evolves K L N
  have hterm : Respects (Evolves K L N) (call setTerminate) :=
    evolves_looks (looks_call (looks_requireValidState _))
  exact law.bind (Moves.modify evolves_refl) fun _ => law.bind hterm fun _ =>
    law.bind (evolves_call hm) fun _ => law.bind (Moves.modify evolves_refl) fun _ =>
      law.bind hterm fun _ => law.bind (Moves.modify evolves_refl) fun _ =>
        law.bind (law.require evolves_refl) fun _ =>
          law.bind (Moves.modify evolves_refl) fun _ => law.pure _

theorem evolves_zusatSolve {p : List ℤ} (hp : ∀ l ∈ p, L l) (ask : Oracle) :
    Respects (Evolves K L N) (zusatSolve (.int p) ask) := by
  have law := along_evolves K L N
  exact Moves.bindExcept (fun _ h => nomatch h) fun _ h => Except.ok.inj h ▸
    (law.bind (evolves_ofExcept _) fun _ =>
    law.bind (Moves.modify evolves_refl) fun _ =>
      law.bind (law.each fun l hl => evolves_call (evolves_assume (hp l hl))) fun _ =>
        evolves_search _ (evolves_solve ask))

theorem evolves_zusatSimplify (ask : Oracle) : Respects (Evolves K L N) (zusatSimplify ask) :=
  (along_evolves K L N).bind (Moves.modify evolves_refl) fun _ =>
    evolves_search _ (evolves_simplify ask)

theorem evolves_zusatReserve (n : SEXP) : Respects (Evolves K L N) (zusatReserve n) := by
  have law := along_evolves K L N
  have hvars : Respects (Evolves K L N) (call vars) := evolves_looks (looks_call looks_vars)
  exact law.bind (evolves_ofExcept _) fun _ => law.bind (law.require evolves_refl) fun _ =>
    law.bind hvars fun _ => law.bind (law.doIf (law.bind (Moves.modify evolves_refl) fun _ =>
      evolves_call (evolves_declareMoreVariables _))) fun _ => hvars

theorem evolves_zusatSetOption {name : String} (hN : N name) (value : SEXP) :
    Respects (Evolves K L N) (zusatSetOption (.str [some name]) value) := by
  have law := along_evolves K L N
  cases ho : hasOption name with
  | none =>
    have : optionName (.str [some name]) = .error (.stop s!"unknown option '{name}'") := by
      rw [optionName, ho]
    rw [zusatSetOption, this]
    exact Moves.bindExcept (fun _ _ => evolves_refl) (fun _ h => nomatch h)
  | some o =>
    have hname : o.name = name := by
      have := List.find?_some ho
      simpa using this
    have hopt : optionName (.str [some name]) = .ok o := by rw [optionName, ho]
    rw [zusatSetOption, hopt]
    refine Moves.bindExcept (fun _ h => nomatch h) fun o' ho' => ?_
    obtain rfl := Except.ok.inj ho'
    refine law.bind (evolves_ofExcept _) fun v => law.bind (law.require evolves_refl) fun _ =>
      law.bind (evolves_call ?_) fun _ => evolves_looks (looks_call (looks_get _))
    exact evolves_set (by rw [hname]; exact hN) v

theorem evolves_zusatLimit (name value : SEXP) : Respects (Evolves K L N) (zusatLimit name value) := by
  have law := along_evolves K L N
  exact law.bind (evolves_ofExcept _) fun _ => law.bind (evolves_ofExcept _) fun _ =>
    evolves_call (evolves_limit _ _)

theorem evolves_zusatTraceProof (path : SEXP) (canOpen : Bool) :
    Respects (Evolves K L N) (zusatTraceProof path canOpen) := by
  have law := along_evolves K L N
  exact law.bind (evolves_ofExcept _) fun _ => law.bind law.read fun _ =>
    law.bind (law.require evolves_refl) fun _ => law.bind (law.require evolves_refl) fun _ =>
      law.bind (law.require evolves_refl) fun _ => law.bind (Moves.modify evolves_refl) fun _ =>
        law.bind (evolves_call (evolves_traceProof _ _)) fun _ => Moves.modify evolves_refl

theorem evolves_zusatCloseProof : Respects (Evolves K L N) zusatCloseProof := by
  have law := along_evolves K L N
  exact law.bind law.read fun _ => law.bind (law.require evolves_refl) fun _ =>
    law.bind (law.doIf (evolves_call evolves_closeProofTrace)) fun _ => Moves.modify evolves_refl

end Entries

end Handle
end Zusat
