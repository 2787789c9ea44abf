import Zusat.Session.Outcome

/-! # Enumerations that follow each other

Blocking clauses are permanent, so a second enumeration of the same variables goes on where the first was
cut off. What the calls in between must keep is that nothing is half added or still assumed; options,
searches and new variables do no harm. -/

namespace Zusat
open Foundations Foundations.Prog
set_option autoImplicit false

namespace Session

/-! ## One enumeration -/

/-- A request for `vs` with nothing assumed or constrained. -/
def onto (limit : RNum) (vs : List ℤ) : Request := ⟨limit, [], none, some vs⟩

/-- The formula and a blocking clause for each assignment listed so far. -/
structure Resumable (F : List (List ℤ)) (vs : List ℤ) (seen : List (List Bool)) (t : Session) :
    Prop where
  clauses : t.solver.clauses = F ++ seen.map (blockingClause vs)
  listing : Listing (fun α => models α F = true) (project vs) seen

section Round
variable {F : List (List ℤ)} {vs : List ℤ} {seen : List (List Bool)} {t : Session} {ask : Oracle}
  {limit : RNum}

theorem Resumable.models_iff (h : Resumable F vs seen t) (hvs : ∀ v ∈ vs, 0 < v) (α : Assignment) :
    models α t.solver.clauses = true ↔
      Remaining (fun α => models α F = true) (project vs) seen α := by
  have hlen : ∀ b ∈ seen, b.length = vs.length := by
    intro b hb
    obtain ⟨β, -, rfl⟩ := h.listing.sound b hb
    exact List.length_map _
  rw [h.clauses, models_append_iff, models_blocking hvs hlen]
  exact Iff.rfl

/-- Such a request searches the clauses as they are. -/
theorem problem_onto (h : Clear t) :
    problem (searchedFrom t (onto limit vs)) = t.solver.clauses := by
  have hcon : ∀ p, (onto limit vs).constraint = some p → ∀ l ∈ p, ValidLit l := by
    intro p hp
    cases hp
  rw [problem_searchedFrom h hcon, Request.formula]
  simp [onto]

theorem Resumable.next (h : Resumable F vs seen t) (hclear : Clear t) (hvs : ∀ v ∈ vs, 0 < v)
    (hask : Correct ask) (hsat : (roundAnswer t (onto limit vs) ask).res = .sat)
    {value : List Bool} (hvalue : value = project vs (modelOf
      (searchedFrom t (onto limit vs)) (roundAnswer t (onto limit vs) ask))) :
    Resumable F vs (seen ++ [value])
      (withClause (asked t (onto limit vs) ask) (blockingClause vs value)) := by
  have hmodel := hask.sat (searchedFrom t (onto limit vs)) hsat
  rw [problem_onto hclear, h.models_iff hvs] at hmodel
  refine ⟨?_, hvalue ▸ h.listing.snoc hmodel⟩
  obtain ⟨hclauses, hclause⟩ := asked_clauses t (onto limit vs) ask
  change (asked t _ ask).solver.clauses ++ [(asked t _ ask).solver.clause ++ _] = _
  rw [hclauses, hclause, hclear.clause, h.clauses, List.nil_append, List.map_append,
    List.append_assoc, List.map_singleton]

end Round

/-- A loop goes on with the listing it finds, and a loop that stops exhausted has completed it. -/
theorem Rounds.resume {F : List (List ℤ)} {vs : List ℤ} {seen : List (List Bool)} {limit : RNum}
    {asks : List Oracle} {t t' : Session} {st st' : Enumeration} {made : List (Session × Oracle)}
    (h : Rounds (onto limit vs) asks t st made st' t') (hvs : ∀ v ∈ vs, 0 < v)
    (hne : vs ≠ []) (hasks : ∀ ask ∈ asks, Correct ask) (hclear : Clear t)
    (hstopped : st.stopped = .limit) (hseen : Resumable F vs (seen ++ st.found) t) :
    Resumable F vs (seen ++ st'.found) t' ∧ (st'.stopped = .exhausted →
      ∀ α, models α F = true → project vs α ∈ seen ++ st'.found) := by
  induction h with
  | limit =>
    refine ⟨hseen, fun hex => ?_⟩
    rw [hstopped] at hex
    cases hex
  | @missed ask asks t st _ hres =>
    refine ⟨⟨(asked_clauses t _ ask).1.trans hseen.clauses, hseen.listing⟩, fun hex α hα => ?_⟩
    have hunsat : (roundAnswer t (onto limit vs) ask).res = .unsat := by
      by_contra hno
      rw [Enumeration.ending, if_neg hno] at hex
      cases hex
    have hnone : ∀ β, ¬Remaining (fun α => models α F = true) (project vs) (seen ++ st.found) β := by
      intro β hβ
      have hno := (hasks ask (List.mem_cons_self ..)).unsat (searchedFrom t (onto limit vs)) hunsat β
      rw [problem_onto hclear, (hseen.models_iff hvs β).mpr hβ] at hno
      cases hno
    exact mem_of_none_remaining hnone hα
  | single _ _ _ hempty => exact absurd hempty hne
  | @more ask asks t t' st st' ws value rest _ hres hplain hws _ hvalue _ ih =>
    obtain rfl : ws = vs := hws
    rw [roundValue_asked (asked_maxVar_of_unextended hplain) hvs] at hvalue
    have hnext := hseen.next hclear hvs (hasks ask (List.mem_cons_self ..)) hres hvalue
    rw [List.append_assoc] at hnext
    exact ih (fun a ha => hasks a (List.mem_cons_of_mem ask ha))
      ((hclear.asked _ ask).withClause _) hstopped hnext

/-! ## Successive enumerations -/

/-- A call that does not change the formula: CaDiCaL does not stop it half way, and no clause joins. -/
def leavesFormula (s : Session) (c : Call) : Prop :=
  noCadicalError (step s c).1 = true ∧ (step s c).2.solver.clauses = s.solver.clauses

/-- Enumerations of `vars` that reported, each with correct searches, and calls in between that leave the
formula alone. -/
inductive Resumed (vars : RValue) : Session → List Solutions → Session → Prop
  | refl (s : Session) : Resumed vars s [] s
  | between {s u : Session} {c : Call} {outs : List Solutions} (hc : leavesFormula s c)
      (hrest : Resumed vars (step s c).2 outs u) : Resumed vars s outs u
  | enumerated {s t u : Session} {limit : RValue} {asks : List Oracle} {out : Solutions}
      {outs : List Solutions} (hasks : ∀ ask ∈ asks, Correct ask)
      (hstep : step s (.solutions limit vars (.ints []) .null asks) = (.ok (.solutions out), t))
      (hrest : Resumed vars t outs u) : Resumed vars s (out :: outs) u

theorem OneShotTracked.valid {s : Session} (h : OneShotTracked s.handle) : s.solver.state.valid = true := by
  obtain ⟨a, ha⟩ := h.oneShot
  rw [ApiState.valid, show s.solver.state.ready = true from ha.ready, Bool.true_or]

theorem OneShotTracked.clear {s : Session} (h : OneShotTracked s.handle) (hidle : s.handle.constraintPending = false) :
    Clear s := by
  obtain ⟨a, ha⟩ := h.oneShot
  have hpending : a.pending = none := by
    have hsome := hidle.symm.trans ha.pending
    simpa using hsome.symm
  have hcon := ha.constraint
  rw [hpending] at hcon
  exact ⟨h.clause, ha.assumptions, hcon⟩

theorem oneShotTracked_after {cs : List Call}
    (hcs : Every step (fun _ _ res => noCadicalError res = true) new cs) : OneShotTracked (after cs).handle :=
  run_invariant step (I := fun s => OneShotTracked s.handle) (fun _ c hn hok => oneShotTracked_step hn c hok) oneShotTracked_new hcs

theorem solutionsHands_onto {s : Session} {limit vars : RValue} {ws : List ℤ} {r : Request}
    (hvars : asVariables "vars" vars = .ok ws) (hne : ws ≠ [])
    (h : solutionsHands s limit vars (.ints []) .null = .ok r) : r = onto r.limit (unique ws) := by
  obtain ⟨x, -, h⟩ := except_bind_ok.mp h
  cases hpend : s.handle.constraintPending with
  | true =>
    rw [hpend] at h
    cases h
  | false =>
    rw [hpend, if_neg Bool.false_ne_true] at h
    obtain ⟨as, has, h⟩ := except_bind_ok.mp h
    obtain ⟨_, -, h⟩ := except_bind_ok.mp h
    obtain ⟨con, hcon, h⟩ := except_bind_ok.mp h
    obtain ⟨vs, hvs, h⟩ := except_bind_ok.mp h
    obtain rfl := Except.ok.inj h
    obtain rfl : [] = as := Except.ok.inj has
    obtain rfl : none = con := Except.ok.inj hcon
    rcases optionalHands_ok hvs with ⟨rfl, -⟩ | ⟨ls, hls, -, rfl, -⟩
    · exact absurd (Except.ok.inj hvars).symm hne
    · obtain rfl : ws = ls := Except.ok.inj (hvars.symm.trans hls)
      rfl

section Calls
variable {F : List (List ℤ)} {ws : List ℤ} {vars limit : RValue} {seen : List (List Bool)}
  {s t u : Session} {asks : List Oracle} {out : Solutions} {outs : List Solutions}

/-- One enumeration among others: what it reports extends the listing. -/
theorem enumeration_resumes (hvars : asVariables "vars" vars = .ok ws) (hne : ws ≠ [])
    (htracked : OneShotTracked s.handle) (hseen : Resumable F (unique ws) seen s)
    (hasks : ∀ ask ∈ asks, Correct ask)
    (hrun : (satSolutions limit vars (.ints []) .null asks).run s = (.ok out, t)) :
    ∃ found, out.assignments = found.map ((unique ws).zip ·) ∧
      Resumable F (unique ws) (seen ++ found) t ∧
      (out.complete = true → ∀ α, models α F = true → project (unique ws) α ∈ seen ++ found) := by
  obtain ⟨r, st, hits, last, hr, hrounds, hfound, -, rfl⟩ := satSolutions_rounds (.inl htracked.valid) hrun
  have honto := solutionsHands_onto hvars hne hr
  obtain ⟨-, hidle, -⟩ := solutionsHands_ok hr
  have hproj : r.projection s = unique ws := by rw [honto]; rfl
  rw [hproj] at hfound ⊢
  have hpos : ∀ v ∈ unique ws, 0 < v := fun v hv => (asVariables_valid hvars v (mem_unique.mp hv)).2
  have hsome : unique ws ≠ [] := by
    obtain ⟨v, hv⟩ := List.exists_mem_of_ne_nil ws hne
    exact List.ne_nil_of_mem (mem_unique.mpr hv)
  have hwidth : ∀ b ∈ st.found, b.length = (unique ws).length := by
    rw [hfound]
    intro b hb
    obtain ⟨x, -, rfl⟩ := List.mem_map.mp hb
    exact List.length_map _
  rw [honto] at hrounds
  obtain ⟨hresumable, hcomplete⟩ := hrounds.resume hpos hsome hasks (htracked.clear hidle) rfl
    (by rwa [List.append_nil])
  exact ⟨st.found, assignments_newSolutions hwidth, hresumable,
    fun hc => hcomplete (of_decide_eq_true hc)⟩

/-- The reports of successive enumerations together extend the listing. -/
theorem Resumed.listing (h : Resumed vars s outs u) (hvars : asVariables "vars" vars = .ok ws)
    (hne : ws ≠ []) (htracked : OneShotTracked s.handle) (hseen : Resumable F (unique ws) seen s) :
    ∃ found, outs.flatMap Solutions.assignments = found.map ((unique ws).zip ·) ∧
      Listing (fun α => models α F = true) (project (unique ws)) (seen ++ found) ∧
      (∀ out, outs.getLast? = some out → out.complete = true →
        ∀ α, models α F = true → project (unique ws) α ∈ seen ++ found) := by
  induction h generalizing seen with
  | refl s => exact ⟨[], rfl, by simpa using hseen.listing, fun out hout => nomatch hout⟩
  | between hc hrest ih =>
    exact ih (oneShotTracked_step htracked _ hc.1) ⟨hc.2.trans hseen.clauses, hseen.listing⟩
  | @enumerated s t u limit asks out outs hasks hstep hrest ih =>
    have hok : noCadicalError (step s (.solutions limit vars (.ints []) .null asks)).1 = true := by
      rw [hstep]
      rfl
    have htracked' := oneShotTracked_step htracked (.solutions limit vars (.ints []) .null asks) hok
    rw [hstep] at htracked'
    obtain ⟨out', t', hrun, hpure⟩ := run_bind_ok.mp hstep
    cases hpure
    obtain ⟨found, hreport, hresumable, hcomplete⟩ :=
      enumeration_resumes hvars hne htracked hseen hasks hrun
    obtain ⟨rest, hreports, hlisting, hlast⟩ := ih htracked' hresumable
    refine ⟨found ++ rest, ?_, by rwa [← List.append_assoc], fun last hout hc α hα => ?_⟩
    · rw [List.flatMap_cons, hreport, hreports, List.map_append]
    · rw [← List.append_assoc]
      cases outs with
      | nil =>
        obtain rfl : out = last := Option.some.inj hout
        exact List.mem_append_left _ (hcomplete hc α hα)
      | cons next outs => exact hlast last (by rwa [List.getLast?_cons_cons] at hout) hc α hα

end Calls

/-- On a solver that holds a formula, successive enumerations of the same variables report no assignment
twice, each they report is that of a model of the formula, and when the last says that it is complete they
have together reported every one, however the others were cut off. -/
theorem enumerations_resumable {cs : List Call}
    (hcs : Every step (fun _ _ res => noCadicalError res = true) new cs) {vars : RValue}
    {ws : List ℤ} (hvars : asVariables "vars" vars = .ok ws) (hne : ws ≠ [])
    {outs : List Solutions} {u : Session} (h : Resumed vars (after cs) outs u) :
    (outs.flatMap Solutions.assignments).Nodup ∧
    (∀ b ∈ outs.flatMap Solutions.assignments,
      ∃ α, models α (after cs).solver.clauses = true ∧ valuation (unique ws) α = b) ∧
    (∀ out, outs.getLast? = some out → out.complete = true →
      ∀ b, b ∈ outs.flatMap Solutions.assignments ↔
        ∃ α, models α (after cs).solver.clauses = true ∧ valuation (unique ws) α = b) := by
  have hstart : Resumable (after cs).solver.clauses (unique ws) [] (after cs) :=
    ⟨(List.append_nil _).symm, listing_nil⟩
  obtain ⟨found, hreports, hlisting, hcomplete⟩ := h.listing hvars hne (oneShotTracked_after hcs) hstart
  rw [List.nil_append] at hlisting hcomplete
  have hsound : ∀ b ∈ outs.flatMap Solutions.assignments,
      ∃ α, models α (after cs).solver.clauses = true ∧ valuation (unique ws) α = b := by
    intro b hb
    rw [hreports] at hb
    obtain ⟨value, hvalue, rfl⟩ := List.mem_map.mp hb
    obtain ⟨α, hα, rfl⟩ := hlisting.sound value hvalue
    exact ⟨α, hα, (zip_project _ α).symm⟩
  refine ⟨?_, hsound, fun out hout hc b => ⟨hsound b, ?_⟩⟩
  · rw [hreports]
    exact nodup_valuations hlisting
  · rintro ⟨α, hα, rfl⟩
    rw [hreports, ← zip_project]
    exact List.mem_map_of_mem (hcomplete out hout hc α hα)

/-- Whether a call reported an enumeration, and a complete one. -/
def completeOf : Except RError CallResult → Option Bool
  | .ok (.solutions out) => some out.complete
  | _ => none

theorem reported_of_complete {res : Except RError CallResult} {b : Bool}
    (h : completeOf res = some b) : ∃ out, res = .ok (.solutions out) ∧ out.complete = b := by
  rw [completeOf.eq_def] at h
  split at h
  · next out => exact ⟨out, rfl, Option.some.inj h⟩
  · cases h

/-- The formula `1`, one enumeration of variable 1 that stops at its limit, and one that goes on. -/
def unitFormula : List Call := [.add (.value (.ints [1]))]

def firstOfTwo : Call := .solutions (.ints [1]) (.ints [1]) (.ints []) .null [guess]

def secondOfTwo : Call := .solutions (.ints [10]) (.ints [1]) (.ints []) .null [guess]

theorem enumerations_resumable_unit :
    ∃ one two u, Resumed (.ints [1]) (after unitFormula) [one, two] u ∧ one.complete = false ∧
      two.complete = true ∧ ∀ b, b ∈ [one, two].flatMap Solutions.assignments ↔
        ∃ α, models α (after unitFormula).solver.clauses = true ∧ valuation [1] α = b := by
  have hguess : ∀ ask ∈ [guess], Correct ask := by simp [correct_guess]
  have hcut : completeOf (step (after unitFormula) firstOfTwo).1 = some false := by decide +kernel
  have hall : completeOf (step (step (after unitFormula) firstOfTwo).2 secondOfTwo).1 =
      some true := by decide +kernel
  obtain ⟨one, hone, hcut⟩ := reported_of_complete hcut
  obtain ⟨two, htwo, hall⟩ := reported_of_complete hall
  have hresumed : Resumed (.ints [1]) (after unitFormula) [one, two] _ :=
    .enumerated hguess (Prod.ext hone rfl) (.enumerated hguess (Prod.ext htwo rfl) (.refl _))
  have hcs : Every step (fun _ _ res => noCadicalError res = true) new unitFormula :=
    ⟨by decide, trivial⟩
  have hvars : asVariables "vars" (.ints [1]) = .ok [1] := rfl
  have hexact := enumerations_resumable hcs hvars (by simp) hresumed
  exact ⟨one, two, _, hresumed, hcut, hall, hexact.2.2 two rfl hall⟩

end Session
end Zusat
