import Zusat.Session.Entries

/-! # Which entry points a call can reach

`Entrywise` asks something of every entry point. Where only some of them keep a relation, the calls that
never reach the others still do: `respects_exported` asks only for the entry points a call `reaches`. -/

namespace Zusat
open Foundations Foundations.Prog
set_option autoImplicit false

namespace Session

/-- The entry points that change the handle and that the call may use. -/
def reaches : Call → EntryCall → Prop
  | .add _, .addClause _ => True
  | .constrain _, .constrain _ => True
  | .cardinality .., .addClause _ => True
  | .reserve _, .reserve _ => True
  | .solve _ ask, .solve _ ask' => ask' = ask
  | .simplify ask, .simplify ask' => ask' = ask
  | .solutions .., .constrain _ => True
  | .solutions .., .addClause _ => True
  | .solutions _ _ _ _ asks, .solve _ ask => ask ∈ asks ∨ ask = interruptedSearch
  | .setOption .., .setOption .. => True
  | .limit .., .limit .. => True
  | .traceProof .., .setOption .. => True
  | .traceProof .., .traceProof .. => True
  | .closeProof, .closeProof => True
  | _, _ => False

section Exported
variable {R : Handle → Handle → Prop} (law : Along R (fun _ : RError => R)) {α : Type}
include law

/-- The program moves the handle along `R` however it ends. -/
abbrev Moving (R : Handle → Handle → Prop) (m : SessionM α) : Prop := Respects (Through R) m

theorem along_through : Along (Through R) (fun _ : RError => Through R) :=
  .of_preorder (fun s => law.refl s.handle) fun h h' => law.trans h h'

theorem moving_looks {m : SessionM α} (hm : Cadical.Looks m) : Moving R m := by
  apply respects_of_snd
  intro s
  rw [hm.snd s]
  exact law.refl _

theorem moving_ofExcept (x : Except RError α) : Moving R (ofExcept x : SessionM α) :=
  moving_looks law (Handle.looks_ofExcept x)

theorem moving_require (b : Bool) (e : RError) : Moving R (require b e : SessionM Unit) :=
  moving_looks law (Cadical.looks_require b e)

theorem moving_refuseAux (lits : List ℤ) (arg : String) : Moving R (refuseAux lits arg) :=
  (along_through law).bind (along_through law).read fun _ => moving_ofExcept law _

omit law in
theorem moving_entry {m : HandleM α} {f : α → EntryResult} {e : EntryCall}
    (he : Handle.entry e = m >>= fun a => pure (f a)) (h : Respects R (Handle.entry e)) :
    Moving R (onHandle m) := by
  rw [he] at h
  exact Moves.within h.of_bind_pure (fun _ _ h => h) (fun _ _ _ h => h)

theorem moving_addClauses (hadd : ∀ lits, Respects R (Handle.entry (.addClause lits)))
    (cls : List (List ℤ)) : Moving R (addClauses cls) :=
  (along_through law).each fun cl _ => moving_entry (e := .addClause (.int cl)) rfl (hadd _)

theorem moving_satSolve {ask : Oracle} (hsolve : ∀ x, Respects R (Handle.entry (.solve x ask)))
    (assumptions : RValue) : Moving R (satSolve assumptions ask) := by
  have law' := along_through law
  exact law'.bind (moving_ofExcept law _) fun p => law'.bind (moving_refuseAux law _ _) fun _ =>
    law'.bind (moving_entry (e := .solve (.int p) ask) rfl (hsolve _)) fun _ =>
      moving_looks law (looks_newSolution _)

theorem moving_round (hcon : ∀ x, Respects R (Handle.entry (.constrain x)))
    (hadd : ∀ x, Respects R (Handle.entry (.addClause x))) {ask : Oracle}
    (hsolve : ∀ x, Respects R (Handle.entry (.solve x ask))) (vars : Option (List ℤ))
    (assumptions : List ℤ) (constraint : Option (List ℤ)) {again : Enumeration → SessionM Enumeration}
    (hagain : ∀ st, Moving R (again st)) (st : Enumeration) :
    Moving R (satSolutionsRound vars assumptions constraint ask again st) := by
  have law' := along_through law
  refine law'.bind (law'.doIf (moving_entry (e := .constrain _) rfl (hcon _))) fun _ =>
    law'.bind (moving_satSolve law hsolve _) fun sol => ?_
  split
  · exact law'.pure _
  · refine law'.bind (moving_looks law looks_satNVars) fun _ =>
      law'.bind (moving_looks law (looks_satValue _)) fun _ => ?_
    split
    · exact law'.pure _
    · exact law'.bind (moving_addClauses law hadd _) fun _ => hagain _

theorem moving_loop (hcon : ∀ x, Respects R (Handle.entry (.constrain x)))
    (hadd : ∀ x, Respects R (Handle.entry (.addClause x))) {asks : List Oracle}
    (hsolve : ∀ ask, ask ∈ asks ∨ ask = interruptedSearch →
      ∀ x, Respects R (Handle.entry (.solve x ask)))
    (limit : RNum) (vars : Option (List ℤ)) (assumptions : List ℤ) (constraint : Option (List ℤ))
    (st : Enumeration) : Moving R (satSolutionsLoop limit vars assumptions constraint asks st) := by
  have law' := along_through law
  induction asks generalizing st with
  | nil =>
    rw [satSolutionsLoop]
    split
    · exact moving_round law hcon hadd (hsolve _ (.inr rfl)) _ _ _ (fun _ => law'.pure _) st
    · exact law'.pure _
  | cons ask asks ih =>
    have hrest := ih fun a ha => hsolve a (ha.imp_left (List.mem_cons_of_mem ask))
    rw [satSolutionsLoop]
    split
    · exact moving_round law hcon hadd (hsolve ask (.inl (List.mem_cons_self ..))) _ _ _ hrest st
    · exact law'.pure _

theorem moving_satSolutions (hcon : ∀ x, Respects R (Handle.entry (.constrain x)))
    (hadd : ∀ x, Respects R (Handle.entry (.addClause x))) {asks : List Oracle}
    (hsolve : ∀ ask, ask ∈ asks ∨ ask = interruptedSearch →
      ∀ x, Respects R (Handle.entry (.solve x ask)))
    (limit vars assumptions constraint : RValue) :
    Moving R (satSolutions limit vars assumptions constraint asks) := by
  apply respects_of_snd
  intro s
  rw [run_satSolutions]
  cases solutionsHands s limit vars assumptions constraint with
  | error e => exact law.refl _
  | ok r =>
    have hloop : Moving R (enumerate r asks) :=
      (along_through law).bind (moving_loop law hcon hadd hsolve _ _ _ _ _) fun _ =>
        (along_through law).pure _
    exact hloop.snd s

theorem moving_satSetOption (hset : ∀ x y, Respects R (Handle.entry (.setOption x y)))
    (name : List (Option String)) (value : RValue) : Moving R (satSetOption name value) := by
  have law' := along_through law
  exact law'.bind (moving_ofExcept law _) fun _ => law'.bind (moving_ofExcept law _) fun _ =>
    law'.bind law'.read fun _ => law'.bind (moving_require law _ _) fun _ =>
      moving_entry (e := .setOption _ _) rfl (hset _ _)

/-- A call moves along every relation that the entry points it reaches move along. -/
theorem respects_exported (c : Call) (h : ∀ e, reaches c e → Respects R (Handle.entry e)) :
    Moving R (exported c) := by
  have law' := along_through law
  cases c with
  | add x =>
    apply law'.bind _ fun _ => law'.pure _
    exact law'.bind (moving_ofExcept law _) fun _ => law'.bind (moving_refuseAux law _ _) fun _ =>
      moving_addClauses law (fun x => h (.addClause x) trivial) _
  | constrain v =>
    apply law'.bind _ fun _ => law'.pure _
    exact law'.bind (moving_require law _ _) fun _ => law'.bind (moving_ofExcept law _) fun _ =>
      law'.bind (moving_refuseAux law _ _) fun _ =>
        moving_entry (e := .constrain _) rfl (h (.constrain _) trivial)
  | cardinality b ls k e =>
    apply law'.bind _ fun _ => law'.pure _
    refine law'.bind (moving_ofExcept law _) fun _ => law'.bind (moving_ofExcept law _) fun _ =>
      law'.bind (moving_ofExcept law _) fun _ => law'.bind (moving_ofExcept law _) fun _ =>
        law'.bind (moving_refuseAux law _ _) fun _ =>
          law'.bind (moving_looks law (looks_onHandle (Handle.looks_call Cadical.looks_vars))) fun _ =>
            law'.bind (moving_ofExcept law _) fun _ => law'.bind (moving_ofExcept law _) fun _ =>
              law'.bind (moving_addClauses law (fun x => h (.addClause x) trivial) _) fun _ =>
                Moves.modify fun s => ?_
    rw [recordAux]
    split <;> exact law.refl _
  | reserve n =>
    apply law'.bind _ fun _ => law'.pure _
    exact law'.bind (moving_ofExcept law _) fun _ => law'.bind law'.read fun _ =>
      law'.bind (moving_ofExcept law _) fun _ =>
        law'.bind (moving_entry (e := .reserve _) rfl (h (.reserve _) trivial)) fun _ => law'.pure _
  | solve v ask =>
    exact law'.bind (moving_satSolve law (fun x => h (.solve x ask) rfl) v) fun _ => law'.pure _
  | simplify ask =>
    exact law'.bind (moving_entry (e := .simplify ask) rfl (h (.simplify ask) rfl)) fun _ => law'.pure _
  | solutions limit vars as con asks =>
    exact law'.bind (moving_satSolutions law (fun x => h (.constrain x) trivial)
      (fun x => h (.addClause x) trivial) (fun ask ha x => h (.solve x ask) ha) _ _ _ _) fun _ => law'.pure _
  | getOption name => exact law'.bind (moving_looks law (looks_satGetOption name)) fun _ => law'.pure _
  | setOption name v =>
    exact law'.bind (moving_satSetOption law (fun x y => h (.setOption x y) trivial) name v)
      fun _ => law'.pure _
  | limit name v =>
    apply law'.bind _ fun _ => law'.pure _
    exact law'.bind (moving_ofExcept law _) fun _ => law'.bind (moving_ofExcept law _) fun _ =>
      moving_entry (e := .limit _ _) rfl (h (.limit _ _) trivial)
  | value vars => exact law'.bind (moving_looks law (looks_satValue vars)) fun _ => law'.pure _
  | valueAll => exact law'.bind (moving_looks law looks_satValueAll) fun _ => law'.pure _
  | failed as =>
    apply law'.bind _ fun _ => law'.pure _
    exact law'.bind (moving_ofExcept law _) fun _ =>
      moving_looks law (looks_onHandle (Handle.looks_zusatFailed _))
  | constraintFailed =>
    exact law'.bind (moving_looks law (looks_onHandle Handle.looks_zusatConstraintFailed))
      fun _ => law'.pure _
  | fixed ls root =>
    apply law'.bind _ fun _ => law'.pure _
    exact law'.bind (moving_ofExcept law _) fun _ =>
      moving_looks law (looks_onHandle (Handle.looks_zusatFixed _ root))
  | conclude =>
    exact law'.bind (moving_looks law (looks_onHandle Handle.looks_zusatConclude)) fun _ => law'.pure _
  | traceProof path format binary canOpen =>
    apply law'.bind _ fun _ => law'.pure _
    exact respects_satTraceProof law'
      (fun nm _ v => moving_satSetOption law (fun x y => h (.setOption x y) trivial) [some nm] v)
      (fun p b => moving_entry (e := .traceProof p b) rfl (h (.traceProof p b) trivial))
      path format binary canOpen
  | closeProof =>
    exact law'.bind (moving_entry (e := .closeProof) rfl (h .closeProof trivial)) fun _ => law'.pure _

end Exported

end Session
end Zusat
