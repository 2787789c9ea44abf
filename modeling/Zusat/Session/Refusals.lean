import Zusat.Handle.Errors
import Zusat.Session.Invariants
import Zusat.Session.Entries

/-! # Who is refused an auxiliary variable

Only `check_not_aux` raises that refusal, and only for a literal the caller has given. So a call that is
refused names a variable of a recorded range among its own literals. -/

namespace Zusat
open Foundations Foundations.Prog
set_option autoImplicit false

namespace Session

/-- The literals a call is given, in every argument that `check_not_aux` looks at. -/
def literalArgs : Call → List ℤ
  | .add x => ((addedClauses x).toOption.getD []).flatten
  | .constrain literals => (asLiterals "literals" literals).toOption.getD []
  | .cardinality _ literals _ _ => (asLiterals "literals" literals).toOption.getD []
  | .solve assumptions _ => (asLiterals "assumptions" assumptions).toOption.getD []
  | .solutions _ vars assumptions constraint _ =>
    (asLiterals "assumptions" assumptions).toOption.getD [] ++
      ((asLiterals "constraint" constraint).toOption.getD [] ++
        (asVariables "vars" vars).toOption.getD [])
  | _ => []

/-- If the error refuses an auxiliary variable, it is the variable of a literal of `lits`. -/
def Refuses (A : List AuxRange) (lits : List ℤ) (e : RError) : Prop :=
  ∀ arg v, e = .auxVariable arg v → hitsAux A v = true ∧ ∃ l ∈ lits, l.natAbs = v

theorem refuses_of_not_aux {A : List AuxRange} {lits : List ℤ} {e : RError}
    (h : e.isAux = false) : Refuses A lits e := by
  rintro arg v rfl
  cases h

/-- From ranges `A`, the program keeps them and refuses literals of `lits` only. -/
abbrev Confined (A : List AuxRange) (lits : List ℤ) {α : Type} (m : SessionM α) : Prop :=
  Moves (fun s s' => s.aux = A → s'.aux = A) (fun e s _ => s.aux = A → Refuses A lits e) m

section Confined
variable {A : List AuxRange} {lits : List ℤ}

theorem along_confined (A : List AuxRange) (lits : List ℤ) :
    Along (fun s s' : Session => s.aux = A → s'.aux = A)
    (fun e s _ => s.aux = A → Refuses A lits e) :=
  ⟨fun _ => id, fun h h' hA => h' (h hA), fun h h' hA => h' (h hA)⟩

theorem confined_ofExcept {α : Type} {x : Except RError α}
    (h : ∀ e, x = .error e → e.isStop = true) :
    Confined A lits (ofExcept x : SessionM α) :=
  (along_confined _ _).ofExcept fun e he _ _ => refuses_of_not_aux (RError.isAux_of_stop (h e he))

theorem confined_bindExcept {α β : Type} {x : Except RError α} {f : α → SessionM β}
    (h : ∀ e, x = .error e → e.isStop = true) (hf : ∀ a, x = .ok a → Confined A lits (f a)) :
    Confined A lits (ofExcept x >>= f) :=
  Moves.bindExcept (fun e he _ _ => refuses_of_not_aux (RError.isAux_of_stop (h e he))) hf

theorem confined_require {b : Bool} {t : String} :
    Confined A lits (require b (.stop t) : SessionM Unit) :=
  (along_confined _ _).require fun _ _ => refuses_of_not_aux rfl

theorem confined_onHandle {α : Type} {m : HandleM α} (hm : Unaware m) :
    Confined A lits (onHandle m) :=
  Moves.within hm (fun _ _ _ hA => hA) (fun _ _ _ he _ => refuses_of_not_aux he)

theorem confined_refuseAux {ls : List ℤ} (hsub : ∀ l ∈ ls, l ∈ lits) (arg : String) :
    Confined A lits (refuseAux ls arg) := by
  intro s
  rw [run_refuseAux]
  cases hcheck : checkNotAux s.aux ls arg with
  | ok u => exact id
  | error e =>
    rintro hA arg' v rfl
    rw [checkNotAux] at hcheck
    split_ifs at hcheck
    · cases hcheck
    · split at hcheck
      · next w hfind =>
        cases hcheck
        obtain ⟨l, hl, rfl⟩ := List.mem_map.mp (List.mem_of_find?_eq_some hfind)
        exact ⟨hA ▸ List.find?_some hfind, l, hsub l hl, rfl⟩
      · cases hcheck

theorem confined_entry {α : Type} {m : HandleM α} {f : α → EntryResult} {e : EntryCall}
    (he : Handle.entry e = m >>= fun a => pure (f a)) : Confined A lits (onHandle m) :=
  confined_onHandle (Moves.of_bind_pure (he ▸ Handle.unaware_entry e))

theorem confined_addClauses (cls : List (List ℤ)) : Confined A lits (addClauses cls) :=
  (along_confined _ _).each fun cl _ => confined_entry (e := .addClause (.int cl)) rfl

theorem confined_satNVars : Confined A lits satNVars :=
  confined_onHandle (Handle.unaware_call Cadical.unaware_vars)

theorem confined_satValue (vars : RValue) : Confined A lits (satValue vars) :=
  confined_bindExcept (fun _ => asVariables_error) fun vs _ =>
    confined_entry (e := .value (.int vs)) rfl

theorem confined_newSolution (status : SolveRes) : Confined A lits (newSolution status) := by
  refine (along_confined _ _).bind ?_ fun _ => (along_confined _ _).bind confined_satNVars fun _ =>
    (along_confined _ _).bind (confined_onHandle
      (Handle.unaware_call (Cadical.unaware_requireValidState _))) fun _ => (along_confined _ _).pure _
  rw [solutionRows]
  split
  · exact (along_confined _ _).bind confined_satNVars fun _ =>
      (along_confined _ _).bind (confined_satValue _) fun _ => (along_confined _ _).pure _
  · exact (along_confined _ _).pure _

theorem confined_satSolve {assumptions : RValue} (h : ∀ ls, asLiterals "assumptions" assumptions =
    .ok ls → ∀ l ∈ ls, l ∈ lits) (ask : Oracle) : Confined A lits (satSolve assumptions ask) :=
  confined_bindExcept (fun _ => asLiterals_error) fun ls hls =>
    (along_confined _ _).bind (confined_refuseAux (h ls hls) _) fun _ =>
      (along_confined _ _).bind (confined_entry (e := .solve (.int ls) ask) rfl) fun _ =>
        confined_newSolution _

/-! ## Enumeration -/

theorem confined_round {vars constraint : Option (List ℤ)} {assumptions : List ℤ}
    (h : ∀ l ∈ assumptions, l ∈ lits) (ask : Oracle) {again : Enumeration → SessionM Enumeration}
    (hagain : ∀ st, Confined A lits (again st)) (st : Enumeration) :
    Confined A lits (satSolutionsRound vars assumptions constraint ask again st) := by
  have law := along_confined A lits
  have hsolve : Confined A lits (satSolve (.ints assumptions) ask) :=
    confined_satSolve (fun ls hls => by rwa [asLiterals_ints_ok hls]) ask
  refine law.bind (law.doIf (confined_entry (e := .constrain _) rfl)) fun _ => law.bind hsolve
    fun sol => ?_
  split
  · exact law.pure _
  · refine law.bind confined_satNVars fun _ => law.bind (confined_satValue _) fun _ => ?_
    split
    · exact law.pure _
    · exact law.bind (confined_addClauses _) fun _ => hagain _

theorem confined_loop {limit : RNum} {vars constraint : Option (List ℤ)} {assumptions : List ℤ}
    (h : ∀ l ∈ assumptions, l ∈ lits) (asks : List Oracle) (st : Enumeration) :
    Confined A lits (satSolutionsLoop limit vars assumptions constraint asks st) := by
  have law := along_confined A lits
  induction asks generalizing st with
  | nil =>
    rw [satSolutionsLoop]
    split
    · exact confined_round h _ (fun _ => law.pure _) st
    · exact law.pure _
  | cons ask asks ih =>
    rw [satSolutionsLoop]
    split
    · exact confined_round h ask ih st
    · exact law.pure _

theorem confined_optional {α : Type} {f : RValue → SessionM α} {v : RValue}
    (hf : v ≠ .null → Confined A lits (f v)) : Confined A lits (optional f v) := by
  have law := along_confined A lits
  by_cases hv : v = .null
  · rw [hv]
    exact law.pure _
  · rw [optional_eq hv]
    exact law.bind (hf hv) fun _ => law.pure _

theorem solutionLimit_error {v : RValue} {e : RError} (h : solutionLimit v = .error e) :
    e.isStop = true := by
  rw [solutionLimit.eq_def] at h
  split at h
  · split_ifs at h
    cases h
    rfl
  · cases h
    rfl

theorem confined_satSolutions (limit vars assumptions constraint : RValue) (asks : List Oracle) :
    Confined A (literalArgs (.solutions limit vars assumptions constraint asks))
      (satSolutions limit vars assumptions constraint asks) := by
  have law := along_confined A (literalArgs (.solutions limit vars assumptions constraint asks))
  refine law.bind (confined_ofExcept fun _ => solutionLimit_error) fun _ => law.bind law.read fun _ =>
    law.bind confined_require fun _ => confined_bindExcept (fun _ => asLiterals_error) fun ls hls => ?_
  have hls' : ∀ l ∈ ls, l ∈ literalArgs (.solutions limit vars assumptions constraint asks) := by
    intro l hl
    rw [literalArgs, hls]
    exact List.mem_append_left _ hl
  refine law.bind (confined_refuseAux hls' _) fun _ => law.bind (confined_optional fun _ =>
    confined_bindExcept (fun _ => asLiterals_error) fun p hp =>
      law.bind (confined_refuseAux (fun l hl => ?_) _) fun _ => law.pure _) fun _ =>
    law.bind (confined_optional fun _ => confined_bindExcept (fun _ => asVariables_error) fun vs hvs =>
      law.bind (confined_refuseAux (fun l hl => ?_) _) fun _ => law.pure _) fun _ =>
        law.bind (confined_loop hls' asks _) fun _ => law.pure _
  · rw [literalArgs, hp]
    exact List.mem_append_right _ (List.mem_append_left _ hl)
  · rw [literalArgs, hvs]
    exact List.mem_append_right _ (List.mem_append_right _ hl)

end Confined

/-! ## Every call -/

section Calls
variable {s : Session} {e : RError}

theorem Confined.refuses {α : Type} {lits : List ℤ} {m : SessionM α} (h : Confined s.aux lits m) :
    Raises (Refuses s.aux lits) m s :=
  h.raises fun _ _ he => he rfl

theorem unaware_entryCall {α : Type} {m : HandleM α} {f : α → EntryResult} {e : EntryCall}
    (he : Handle.entry e = m >>= fun a => pure (f a)) : Unaware (onHandle m) :=
  unaware_within (Moves.of_bind_pure (he ▸ Handle.unaware_entry e))

theorem unaware_satGetOption (name : List (Option String)) : Unaware (satGetOption name) :=
  along_unaware.bind (unaware_stop fun _ => optionNamed_error) fun _ =>
    unaware_within (along_unaware.bind (Handle.unaware_optionName _) fun _ =>
      Handle.unaware_call (Cadical.unaware_get _))

theorem unaware_satSetOption (name : List (Option String)) (value : RValue) :
    Unaware (satSetOption name value) :=
  along_unaware.bind (unaware_stop fun _ => optionNamed_error) fun _ =>
    along_unaware.bind (unaware_stop fun _ => optionValue_error) fun _ =>
      along_unaware.bind along_unaware.read fun _ => along_unaware.bind (unaware_require rfl) fun _ =>
        unaware_entryCall (e := .setOption _ _) rfl

theorem unaware_satValue (vars : RValue) : Unaware (satValue vars) :=
  along_unaware.bind (unaware_stop fun _ => asVariables_error) fun _ =>
    unaware_entryCall (e := .value _) rfl

theorem satTraceProof_not_aux (path format binary : RValue) (canOpen : Bool) :
    Raises (fun e => e.isAux = false) (satTraceProof path format binary canOpen) s := by
  have hraises : ∀ {α : Type} {m : SessionM α}, Unaware m → ∀ t : Session,
      Raises (fun e => e.isAux = false) m t := fun hm t => hm.raises fun _ _ he => he
  have hset : ∀ {α : Type} (v w : RValue) {m : SessionM α}, Unaware m →
      Unaware (satSetOption [some "binary"] v >>= fun _ =>
        satSetOption [some "lrat"] w >>= fun _ => m) := fun v w _ hm =>
    along_unaware.bind (unaware_satSetOption _ v) fun _ =>
      along_unaware.bind (unaware_satSetOption _ w) fun _ => hm
  refine Raises.ofExcept_bind (fun _ h => RError.isAux_of_stop (matchFormat_error h)) fun _ _ =>
    Raises.ofExcept_bind (fun e h => ?_) fun _ _ => Raises.ofExcept_bind (fun e h => ?_) fun _ _ =>
      Raises.bind (.of_ok rfl) fun _ _ _ => Raises.require_bind rfl fun _ =>
        Raises.bind (hraises (unaware_satGetOption _) _) fun _ _ _ =>
          Raises.bind (hraises (unaware_satGetOption _) _) fun _ _ _ =>
            Raises.onError (hraises (hset _ _ (unaware_entryCall (e := .traceProof _ _) rfl)) _)
              fun _ _ _ => hraises (hset _ _ (along_unaware.pure _)) _
  · split at h
    · cases h
    · cases h
      rfl
  · split at h
    · cases h
    · cases h
      rfl

theorem refuses_satAdd (x : RArg) : Raises (Refuses s.aux (literalArgs (.add x))) (satAdd x) s := by
  refine Confined.refuses (confined_bindExcept (fun e he => ?_) fun cls hcls =>
    (along_confined _ _).bind (confined_refuseAux (fun l hl => ?_) _) fun _ => confined_addClauses _)
  · rcases addedClauses_cases x with ⟨cls, hcls, -⟩ | ⟨e', he', hstop⟩
    · rw [hcls] at he
      cases he
    · rw [he] at he'
      rwa [Except.error.inj he']
  · rw [literalArgs, hcls]
    exact hl

theorem refuses_satConstrain (v : RValue) :
    Raises (Refuses s.aux (literalArgs (.constrain v))) (satConstrain v) s := by
  refine Confined.refuses ((along_confined _ _).bind confined_require fun _ =>
    confined_bindExcept (fun _ => asLiterals_error) fun ls hls =>
      (along_confined _ _).bind (confined_refuseAux (fun l hl => ?_) _) fun _ =>
        confined_entry (e := .constrain (.int ls)) rfl)
  rw [literalArgs, hls]
  exact hl

theorem refuses_satCardinality (b : Bound) (literals k encoding : RValue) :
    Raises (Refuses s.aux (literalArgs (.cardinality b literals k encoding)))
      (satCardinality b literals k encoding) s := by
  have law := along_confined s.aux (literalArgs (.cardinality b literals k encoding))
  refine Raises.ofExcept_bind (fun _ h => refuses_of_not_aux (RError.isAux_of_stop (asLiterals_error h)))
    fun ls hls => Raises.ofExcept_bind
      (fun _ h => refuses_of_not_aux (RError.isAux_of_stop (checkDistinct_error h))) fun ls' hls' =>
      Raises.ofExcept_bind
        (fun _ h => refuses_of_not_aux (RError.isAux_of_stop (matchEncoding_error h))) fun _ _ =>
        Raises.ofExcept_bind
          (fun _ h => refuses_of_not_aux (RError.isAux_of_stop (checkBound_error h))) fun n _ => ?_
  have hsub : ∀ l ∈ ls', l ∈ literalArgs (.cardinality b literals k encoding) := by
    intro l hl
    rw [checkDistinct] at hls'
    split at hls'
    · cases hls'
    · rw [literalArgs, hls, Except.ok.inj hls']
      exact hl
  -- the range is recorded last, when nothing can fail any more
  refine Raises.bind (Confined.refuses (confined_refuseAux hsub _)) fun _ s₁ h₁ => ?_
  have haux₁ : s₁.aux = s.aux := (confined_refuseAux hsub "literals").of_ok h₁ rfl
  refine Raises.bind (haux₁ ▸ Confined.refuses confined_satNVars) fun _ s₂ h₂ => ?_
  have haux₂ : s₂.aux = s.aux :=
    ((show Confined s₁.aux ls' satNVars from confined_satNVars).of_ok h₂ rfl).trans haux₁
  refine Raises.ofExcept_bind
    (fun _ h => refuses_of_not_aux (RError.isAux_of_stop (Bound.encode_error h))) fun enc _ =>
      Raises.ofExcept_bind (fun _ h => refuses_of_not_aux (RError.isAux_of_stop
        (mapM_error (fun _ _ => asLiterals_error) h))) fun cls _ =>
        Raises.bind (haux₂ ▸ Confined.refuses (confined_addClauses cls)) fun _ _ _ => .of_ok rfl

/-- A call that is refused an auxiliary variable has named it. -/
theorem refuses_step {c : Call} (h : (step s c).1 = .error e) :
    Refuses s.aux (literalArgs c) e := by
  have hof : ∀ {α : Type} {m : SessionM α}, Unaware m →
      Raises (Refuses s.aux (literalArgs c)) m s := fun hm =>
    hm.raises fun _ _ he => refuses_of_not_aux he
  suffices hraises : Raises (Refuses s.aux (literalArgs c)) (exported c) s from hraises e h
  cases c with
  | add x => exact (refuses_satAdd x).bind_pure
  | constrain v => exact (refuses_satConstrain v).bind_pure
  | cardinality b ls k en => exact (refuses_satCardinality b ls k en).bind_pure
  | solve as ask =>
    refine (Confined.refuses (confined_satSolve (fun ls hls l hl => ?_) ask)).bind_pure
    rw [literalArgs, hls]
    exact hl
  | solutions limit vars as con asks =>
    exact (Confined.refuses (confined_satSolutions limit vars as con asks)).bind_pure
  | reserve n =>
    refine (hof (along_unaware.bind (unaware_stop fun _ => reserveCount_error) fun _ =>
      along_unaware.bind along_unaware.read fun _ => along_unaware.bind (unaware_stop fun e h => ?_)
        fun _ => along_unaware.bind (unaware_entryCall (e := .reserve _) rfl) fun _ =>
          along_unaware.pure _)).bind_pure
    split at h
    · cases h
      rfl
    · cases h
  | simplify ask => exact (hof (unaware_entryCall (e := .simplify ask) rfl)).bind_pure
  | getOption name => exact (hof (unaware_satGetOption name)).bind_pure
  | setOption name v => exact (hof (unaware_satSetOption name v)).bind_pure
  | limit name v =>
    refine (hof (along_unaware.bind (unaware_stop fun e h => ?_) fun _ =>
      along_unaware.bind (unaware_stop fun _ => checkLimitValue_error) fun _ =>
        unaware_entryCall (e := .limit _ _) rfl)).bind_pure
    split at h
    · split_ifs at h
      cases h
      rfl
    · cases h
      rfl
  | value vars => exact (hof (unaware_satValue vars)).bind_pure
  | valueAll =>
    exact (hof (along_unaware.bind (unaware_within (Handle.unaware_call Cadical.unaware_vars))
      fun _ => unaware_satValue _)).bind_pure
  | failed as =>
    exact (hof (along_unaware.bind (unaware_stop fun _ => asLiterals_error) fun _ =>
      unaware_entryCall (e := .failed _) rfl)).bind_pure
  | constraintFailed => exact (hof (unaware_entryCall (e := .constraintFailed) rfl)).bind_pure
  | fixed ls root =>
    exact (hof (along_unaware.bind (unaware_stop fun _ => asLiterals_error) fun _ =>
      unaware_entryCall (e := .fixed _ root) rfl)).bind_pure
  | conclude => exact (hof (unaware_entryCall (e := .conclude) rfl)).bind_pure
  | traceProof path format binary canOpen =>
    exact Raises.bind_pure fun e he =>
      refuses_of_not_aux (satTraceProof_not_aux path format binary canOpen e he)
  | closeProof => exact (hof (unaware_entryCall (e := .closeProof) rfl)).bind_pure

end Calls

end Session
end Zusat
