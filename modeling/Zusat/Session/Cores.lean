import Zusat.Session.Answers

/-! # Failed assumptions and fixed literals

After `unsat` the literals for which `sat_failed` says yes are assumptions that cannot all hold together
with what the calls of the session said, and `sat_constraint_failed` tells whether the constraint is needed
for that. Both answers stand until a call changes the formula or searches again. -/

namespace Zusat
open Foundations Foundations.Prog
set_option autoImplicit false

namespace Session

/-- The part of the problem an answer blames. -/
def blamed (c : Cadical) (a : Answer) : List (List ℤ) :=
  c.clauses ++ (c.assumptions.filter a.failed).map (fun l => [l]) ++
    if a.constraintFailed then constraintClauses c.constraint else []

/-- The search blames assumptions only, and what it blames is enough for a refutation. -/
structure Blames (ask : Oracle) : Prop where
  assumed : ∀ c l, (ask c).failed l = true → l ∈ c.assumptions
  refuted : ∀ c, (ask c).res = .unsat → ∀ α, models α (blamed c (ask c)) = false

theorem core_run {cs : List Call} (hcs : ∀ c ∈ cs, quietCall c) (s : Session) :
    Handle.core (run step s cs).handle = Handle.core s.handle := by
  induction cs generalizing s with
  | nil => rfl
  | cons c cs ih =>
    have hrest := ih (fun d hd => hcs d (List.mem_cons_of_mem c hd)) (step s c).2
    exact hrest.trans (core_step (hcs c (List.mem_cons_self ..)) s)

theorem run_satConstraintFailed {s : Session} (hl : s.handle.lastStatus = 20)
    (hs : s.solver.state = .unsatisfied) :
    satConstraintFailed.run s = (.ok s.solver.constraintFailed, s) := by
  have hv : s.handle.solver.state.valid = true := by
    rw [show s.handle.solver.state = _ from hs]
    rfl
  have hc : Cadical.constraintFailedFn.run s.handle.solver =
      (.ok s.handle.solver.constraintFailed, s.handle.solver) := by
    rw [Cadical.constraintFailedFn, run_bind, Cadical.run_requireValidState hv, andThen_ok, run_bind,
      run_read, andThen_ok, run_bind, show s.handle.solver.state = _ from hs]
    rfl
  apply run_onHandle
  rw [Handle.zusatConstraintFailed, run_bind, run_read, andThen_ok, run_bind, hl]
  exact Handle.run_call hc

theorem run_satFailed {s : Session} (hl : s.handle.lastStatus = 20)
    (hs : s.solver.state = .unsatisfied) (hoff : ∀ v, s.solver.ervars v = false) {ls : List ℤ}
    (hls : ∀ l ∈ ls, ValidLit l) :
    (satFailed (.ints ls)).run s = (.ok (ls.map s.solver.failedLits), s) := by
  have husable : ∀ l ∈ ls, s.handle.solver.usable l = true := fun l hmem =>
    usable_of_valid (hls l hmem) (hoff _)
  rw [satFailed, run_bind, asLiterals_ints hls, run_ofExcept_ok, andThen_ok]
  exact run_onHandle (Handle.run_zusatFailed hl hs hls husable)

/-- A solve that returned a solution has searched, uninterrupted, and the status is its answer. -/
theorem solved {s : Session} {w : Option (List ℤ)} (hs : Awaiting s w) {v : RValue} {ask : Oracle}
    {sol : Solution} (hsol : (step s (.solve v ask)).1 = .ok (.solution sol)) :
    ∃ p, solveHands s.aux v = .ok p ∧ (answerOf s.solver p ask).interrupted = false ∧
      (answerOf s.solver p ask).res = sol.status ∧
      (step s (.solve v ask)).2 = s.withHandle (searched s.handle p ask) := by
  have hres : (step s (.solve v ask)).1 = ((satSolve v ask).run s).1.map .solution :=
    congrArg Prod.fst (run_bind_pure _ _ _)
  rw [hres] at hsol
  rcases hs.solve_cases v ask with ⟨e, -, hrun⟩ | ⟨p, hp, hrun⟩
  · rw [hrun] at hsol
    cases hsol
  · have hi : (answerOf s.solver p ask).interrupted = false := by
      by_contra hc
      rw [hrun, if_pos (by simpa using hc)] at hsol
      cases hsol
    refine ⟨p, hp, hi, ?_, by rw [step_solve_snd, hrun, searched_solve]⟩
    rw [hrun, hi, if_neg Bool.false_ne_true] at hsol
    rcases hnew : (newSolution (answerOf s.solver p ask).res).run
      (s.withHandle (searched s.handle p ask)) with ⟨r, t⟩
    rw [hnew] at hsol
    cases r with
    | error e => cases hsol
    | ok sol' =>
      injection hsol with hsol
      injection hsol with hsol
      rw [← hsol, newSolution_status hnew]

/-- What an `unsat` search leaves to be asked about. -/
structure Refuted (h : Handle) (a : Answer) : Prop where
  lastStatus : h.lastStatus = 20
  state : h.solver.state = .unsatisfied
  ervars : ∀ v, h.solver.ervars v = false
  failed : h.solver.failedLits = a.failed
  constraintFailed : h.solver.constraintFailed = a.constraintFailed

theorem Refuted.of_core {h h' : Handle} {a : Answer} (hr : Refuted h a)
    (hcore : Handle.core h' = Handle.core h) : Refuted h' a where
  lastStatus := (congrArg Handle.lastStatus hcore).trans hr.lastStatus
  state := (congrArg (·.solver.state) hcore).trans hr.state
  ervars v := (congrArg (·.solver.ervars v) hcore).trans (hr.ervars v)
  failed := (congrArg (·.solver.failedLits) hcore).trans hr.failed
  constraintFailed := (congrArg (·.solver.constraintFailed) hcore).trans hr.constraintFailed

theorem refuted_searched {s : Session} {p : List ℤ} {ask : Oracle}
    (hoff : FactorOff (searched s.handle p ask).solver)
    (hi : (answerOf s.solver p ask).interrupted = false)
    (hunsat : (answerOf s.solver p ask).res = .unsat) :
    Refuted (searched s.handle p ask) (answerOf s.solver p ask) := by
  refine ⟨?_, congrArg SolveRes.state hunsat, hoff.ervars, rfl, rfl⟩
  change (if (answerOf s.solver p ask).interrupted then _ else (answerOf s.solver p ask).res.code) = _
  rw [hi, hunsat]
  rfl

/-- What the search of a solve blames, in the user's terms. -/
theorem blamed_solve {s : Session} {w : Option (List ℤ)} (hs : Awaiting s w) (p : List ℤ) (a : Answer) :
    blamed (assuming s.solver p).startSearch a = s.solver.clauses ++
      (p.filter a.failed).map (fun l => [l]) ++ (if a.constraintFailed then w else none).toList := by
  obtain ⟨hclauses, hass, hcon⟩ := search_starts hs p
  rw [blamed, hclauses, hass, hcon]
  split
  · rw [constraintClauses_inForce hs.lits]
  · rfl

/-- After `unsat`, and for as long as only quiet calls follow, `sat_failed` picks assumptions that the calls
of the session refute, together with the constraint if `sat_constraint_failed` says so. -/
theorem failed_assumptions (cs : List Call) (hcs : ∀ c ∈ cs, ordinary c) (v : RValue) (ask : Oracle)
    (hask : Blames ask) (p : List ℤ) (hp : asLiterals "assumptions" v = .ok p) (sol : Solution)
    (hsol : (step (after cs) (.solve v ask)).1 = .ok (.solution sol)) (hunsat : sol.status = .unsat)
    (later : List Call) (hlater : ∀ c ∈ later, quietCall c) :
    ∃ (failed : ℤ → Bool) (b : Bool),
      (∀ ls, (∀ l ∈ ls, ValidLit l) →
        (step (after (cs ++ .solve v ask :: later)) (.failed (.ints ls))).1 =
          .ok (.lgl (ls.map fun l => some (failed l)))) ∧
      (step (after (cs ++ .solve v ask :: later)) .constraintFailed).1 = .ok (.lgl [some b]) ∧
      (∀ l, failed l = true → l ∈ p) ∧
      ∀ α, ¬Asked cs (p.filter failed) (if b then waiting cs else none) α := by
  have hs := awaiting_after hcs
  obtain ⟨q, hq, hi, hres, hstep⟩ := solved hs hsol
  obtain rfl : p = q := Except.ok.inj (hp.symm.trans (solveHands_ok hq).1)
  rw [hunsat] at hres
  have hoff := (hs.solve v ask).plain.off
  rw [hstep] at hoff
  -- quiet calls leave the refutation in place
  have hcore : Handle.core (after (cs ++ .solve v ask :: later)).handle =
      Handle.core (searched (after cs).handle p ask) := by
    rw [after, run_append, run_cons]
    change Handle.core (run step (step (after cs) (.solve v ask)).2 later).handle = _
    rw [hstep]
    exact core_run hlater _
  have hr := (refuted_searched hoff hi hres).of_core hcore
  set a := answerOf (after cs).solver p ask
  refine ⟨a.failed, a.constraintFailed, fun ls hls => ?_, ?_, fun l hl => ?_, fun α hα => ?_⟩
  · rw [step, exported, run_bind, run_satFailed hr.lastStatus hr.state hr.ervars hls, andThen_ok, run_pure,
      show (after (cs ++ .solve v ask :: later)).solver.failedLits = _ from hr.failed, List.map_map]
    rfl
  · rw [step, exported, run_bind, run_satConstraintFailed hr.lastStatus hr.state, andThen_ok, run_pure,
      show (after (cs ++ .solve v ask :: later)).solver.constraintFailed = _ from hr.constraintFailed]
  · have hmem := hask.assumed _ l hl
    rwa [(search_starts hs p).2.1] at hmem
  · have hfree : ∀ l ∈ p.filter a.failed, ¬InAux (after cs).aux l.natAbs := fun l hl =>
      (checkNotAux_ok_iff hs.plain.ranges.increasing _ _).mp (solveHands_ok hq).2.1 l
        (List.mem_filter.mp hl).1
    have hown : ∀ q, (if a.constraintFailed then waiting cs else none) = some q →
        ∀ l ∈ q, ¬InAux (after cs).aux l.natAbs := by
      intro q hq l hl
      split at hq
      · exact (waiting_own hcs hq l hl).1
      · cases hq
    obtain ⟨β, -, hβ⟩ := (asked_iff hcs hfree hown α).mpr hα
    rw [← blamed_solve hs p a] at hβ
    exact absurd (hβ.symm.trans (hask.refuted _ hres β)) (by decide)

/-- A search that blames all there is. -/
def blameAll : Oracle := fun c =>
  { guess c with failed := fun l => decide (l ∈ c.assumptions), constraintFailed := true }

theorem blames_blameAll : Blames blameAll := by
  constructor
  · intro c l hl
    simpa [blameAll] using hl
  · intro c hunsat α
    have hall : c.assumptions.filter (blameAll c).failed = c.assumptions := by
      simp [blameAll]
    rw [blamed, hall]
    exact correct_guess.unsat c hunsat α

/-- Variable 1 holds by a clause and is assumed false. -/
theorem failed_assumptions_unit :
    let cs : List Call := [.add (.value (.ints [1]))]
    statusOf (step (after cs) (.solve (.ints [-1]) blameAll)).1 = some .unsat ∧
      ∃ failed : ℤ → Bool, ∀ α, ¬Asked cs ([-1].filter failed) none α := by
  intro cs
  have hcs : ∀ c ∈ cs, ordinary c := by
    simp [cs, ordinary, leavesFactor, setsOption, defaultProjection]
  have hstatus : statusOf (step (after cs) (.solve (.ints [-1]) blameAll)).1 = some .unsat := by decide
  refine ⟨hstatus, ?_⟩
  unfold statusOf at hstatus
  split at hstatus
  · next sol hsol =>
    obtain ⟨failed, b, -, -, -, hcore⟩ := failed_assumptions cs hcs (.ints [-1]) blameAll blames_blameAll
      [-1] rfl sol hsol (Option.some.inj hstatus) [.failed (.ints [-1])] (by simp [quietCall])
    refine ⟨failed, fun α => ?_⟩
    have hnone : (if b then waiting cs else none) = none := by
      cases b <;> rfl
    rw [← hnone]
    exact hcore α
  · cases hstatus

/-! ## Fixed literals -/

theorem meaning_mono {cs later : List Call} {α : Assignment} (h : Meaning (cs ++ later) α) :
    Meaning cs α := fun before c rest hsplit => h before c (rest ++ later) (by rw [hsplit]; simp)

theorem run_satFixed {s : Session} (hv : s.solver.state.valid = true)
    (hoff : ∀ v, s.solver.ervars v = false) (root : ℤ → ℤ) {ls : List ℤ}
    (hls : ∀ l ∈ ls, ValidLit l) :
    (satFixed (.ints ls) root).run s =
      (.ok (ls.map fun l => if root l = 0 then none else some (decide (root l > 0))), s) := by
  have hfixed : ∀ l ∈ ls, (Handle.call (Cadical.fixed root l)).run s.handle = (.ok (root l), s.handle) := by
    intro l hl
    have husable : s.handle.solver.usable l = true := usable_of_valid (hls l hl) (hoff _)
    apply Handle.run_call (c := s.handle.solver)
    rw [Cadical.fixed, run_bind, Cadical.run_requireValidState hv, andThen_ok, run_bind,
      Cadical.run_requireValidLit husable, andThen_ok, run_pure]
  rw [satFixed, run_bind, asLiterals_ints hls, run_ofExcept_ok, andThen_ok]
  apply run_onHandle
  rw [Handle.zusatFixed, Handle.asInts, run_bind, run_ofExcept_ok, andThen_ok, run_bind,
    Handle.checkLits_ok hls, run_ofExcept_ok, andThen_ok]
  refine run_collect fun l hl => ?_
  rw [run_bind, hfixed l hl, andThen_ok, run_pure]

/-- What `sat_fixed` reports of a literal that is not auxiliary holds in every assignment that meets the
calls so far, whatever calls follow. -/
theorem fixed_literals (cs later : List Call) (hcs : ∀ c ∈ cs, ordinary c) (root : ℤ → ℤ)
    (hroot : ∀ l, root l ≠ 0 → ∀ β, models β (after cs).solver.clauses = true →
      holds β l = decide (root l > 0)) (ls : List ℤ) (hls : ∀ l ∈ ls, ValidLit l) :
    ∃ fixed : ℤ → Option Bool,
      (step (after cs) (.fixed (.ints ls) root)).1 = .ok (.lgl (ls.map fixed)) ∧
      ∀ l ∈ ls, ¬InAux (after cs).aux l.natAbs → ∀ b, fixed l = some b →
        ∀ α, Meaning (cs ++ later) α → holds α l = b := by
  have hs := awaiting_after hcs
  refine ⟨fun l => if root l = 0 then none else some (decide (root l > 0)), ?_, ?_⟩
  · rw [step, exported, run_bind, run_satFixed hs.plain.valid hs.plain.off.ervars root hls, andThen_ok,
      run_pure]
  · intro l _ hl b hb α hα
    obtain ⟨β, hβ, hm⟩ := (means_after hcs α).mpr (meaning_mono hα)
    rw [holds_congr (β := β) (hβ _ hl).symm]
    simp only at hb
    split at hb
    · cases hb
    · next hne =>
      rw [hroot l hne β hm]
      exact Option.some.inj hb

/-- A unit clause is fixed. -/
theorem fixed_literals_unit :
    let cs : List Call := [.add (.value (.ints [2]))]
    (step (after cs) (.fixed (.ints [2]) fun l => if l = 2 then 1 else 0)).1 =
        .ok (.lgl [some true]) ∧
      ∀ α, Meaning (cs ++ [.add (.value (.ints [1]))]) α → holds α 2 = true := by
  intro cs
  have hcs : ∀ c ∈ cs, ordinary c := by
    simp [cs, ordinary, leavesFactor, setsOption, defaultProjection]
  have hroot : ∀ l : ℤ, (if l = 2 then (1 : ℤ) else 0) ≠ 0 → ∀ β,
      models β (after cs).solver.clauses = true → holds β l = decide ((if l = 2 then (1 : ℤ) else 0) > 0) := by
    intro l hl β hβ
    have h2 : l = 2 := by
      by_contra hne
      simp [hne] at hl
    rw [h2]
    rw [show (after cs).solver.clauses = [[2]] by rfl] at hβ
    simpa [models, satisfies] using hβ
  obtain ⟨fixed, hstep, hfixed⟩ := fixed_literals cs [.add (.value (.ints [1]))] hcs _ hroot [2] (by decide)
  have hvalue : (step (after cs) (.fixed (.ints [2]) fun l => if l = 2 then 1 else 0)).1 =
      .ok (.lgl [some true]) := by rfl
  rw [hstep] at hvalue
  have htrue : fixed 2 = some true := by
    injection hvalue with hvalue
    injection hvalue with hvalue
    simpa using hvalue
  exact ⟨by rw [hstep, List.map_singleton, htrue], hfixed 2 (by simp) (by decide) true htrue⟩

end Session
end Zusat
