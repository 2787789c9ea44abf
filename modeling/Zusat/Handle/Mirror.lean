import Zusat.Handle.Calls

/-! # The cached flags mirror CaDiCaL's state

`configuring`, `last_status` and `concludable` decide whether a model, a core or a conclusion may be
read. As long as CaDiCaL raises no error they say exactly what CaDiCaL's own API state says; an
interrupted search is the one exception, and there all three are down. -/

namespace Zusat
open Foundations Foundations.Prog
set_option autoImplicit false

/-- The last search was interrupted. -/
def Cadical.lastInterrupted (c : Cadical) : Bool := c.searches.getLast?.any (·.answer.interrupted)

namespace Handle

/-- The flags of the handle say what CaDiCaL's state says. -/
structure Mirrors (h : Handle) : Prop where
  configuring : h.configuring = true ↔ h.solver.state = .configuring
  satisfied : h.solver.lastInterrupted = false → (h.lastStatus = 10 ↔ h.solver.state = .satisfied)
  unsatisfied :
    h.solver.lastInterrupted = false → (h.lastStatus = 20 ↔ h.solver.state = .unsatisfied)
  concludable : h.solver.lastInterrupted = false → (h.concludable = true ↔ h.solver.state.ended)
  interrupted : h.solver.lastInterrupted = true →
    h.configuring = false ∧ h.lastStatus = 0 ∧ h.concludable = false

/-- A ready solver whose flags mirror it. -/
structure Ready (h : Handle) : Prop extends Mirrors h where
  ready : h.solver.state.ready = true

theorem ready_new : Ready new where
  configuring := by decide
  satisfied := fun _ => by decide
  unsatisfied := fun _ => by decide
  concludable := fun _ => by decide
  interrupted := fun h => absurd h (by decide)
  ready := rfl

/-- With all flags down the handle mirrors a steady solver. -/
theorem Ready.of_steady {h : Handle} (hs : h.solver.state = .steady) (hc : h.configuring = false)
    (hl : h.lastStatus = 0) (hn : h.concludable = false) : Ready h where
  configuring := by rw [hs, hc]; decide
  satisfied := fun _ => by rw [hs, hl]; decide
  unsatisfied := fun _ => by rw [hs, hl]; decide
  concludable := fun _ => by rw [hs, hn]; decide
  interrupted := fun _ => ⟨hc, hl, hn⟩
  ready := by rw [hs]; rfl

theorem Ready.of_core {h h' : Handle} (hr : Ready h) (hcore : core h' = core h) : Ready h' := by
  have hstate : h'.solver.state = h.solver.state := congrArg (·.solver.state) hcore
  have hsearches : h'.solver.searches = h.solver.searches := congrArg (·.solver.searches) hcore
  have hlast : h'.solver.lastInterrupted = h.solver.lastInterrupted := by
    rw [Cadical.lastInterrupted, hsearches, Cadical.lastInterrupted]
  have hconf : h'.configuring = h.configuring := congrArg (·.configuring) hcore
  have hstatus : h'.lastStatus = h.lastStatus := congrArg (·.lastStatus) hcore
  have hconc : h'.concludable = h.concludable := congrArg (·.concludable) hcore
  constructor
  · constructor
    · rw [hconf, hstate]; exact hr.configuring
    · rw [hlast, hstatus, hstate]; exact hr.satisfied
    · rw [hlast, hstatus, hstate]; exact hr.unsatisfied
    · rw [hlast, hconc, hstate]; exact hr.concludable
    · rw [hlast, hconf, hstatus, hconc]; exact hr.interrupted
  · rw [hstate]; exact hr.ready

theorem code_sat_iff (r : SolveRes) : r.code = 10 ↔ r.state = .satisfied := by cases r <;> decide

theorem code_unsat_iff (r : SolveRes) : r.code = 20 ↔ r.state = .unsatisfied := by
  cases r <;> decide

theorem state_ended (r : SolveRes) : r.state.ended = true := by cases r <;> rfl

theorem state_ready (r : SolveRes) : r.state.ready = true := by cases r <;> rfl

theorem state_ne_configuring (r : SolveRes) : r.state ≠ .configuring := by cases r <;> decide

theorem lastInterrupted_afterSearch (pre : Bool) (ask : Oracle) (c : Cadical) :
    (Cadical.afterSearch pre ask c).lastInterrupted = (ask c.startSearch).interrupted := by
  have : (Cadical.afterSearch pre ask c).searches.getLast? = some
      ⟨pre, c.startSearch.maxVar, c.startSearch.assumptions, c.startSearch.constraint, ask c.startSearch⟩ := by
    change (_ ++ [_]).getLast? = _
    rw [List.getLast?_append, List.getLast?_singleton, Option.some_or]
  rw [Cadical.lastInterrupted, this]
  rfl

/-- After a search the flags are set from its answer, or stay down when it was interrupted. -/
theorem Ready.of_finish {h : Handle} (hc : h.configuring = false) (hl : h.lastStatus = 0)
    (hn : h.concludable = false) (pre : Bool) (ask : Oracle) (c : Cadical) :
    Ready (finish h (ask c.startSearch) (Cadical.afterSearch pre ask c)) := by
  have hlast := lastInterrupted_afterSearch pre ask c
  have hstatus : ∀ i, (ask c.startSearch).interrupted = i →
      (finish h (ask c.startSearch) (Cadical.afterSearch pre ask c)).lastStatus =
        if i then h.lastStatus else (ask c.startSearch).res.code := fun i hi => hi ▸ rfl
  have hconc : ∀ i, (ask c.startSearch).interrupted = i →
      (finish h (ask c.startSearch) (Cadical.afterSearch pre ask c)).concludable =
        if i then h.concludable else true := fun i hi => hi ▸ rfl
  have hstate : (finish h (ask c.startSearch) (Cadical.afterSearch pre ask c)).solver.state =
      (ask c.startSearch).res.state := rfl
  constructor
  · constructor
    · rw [hstate]
      exact ⟨fun h => absurd (hc.symm.trans h) Bool.false_ne_true,
        fun h => absurd h (state_ne_configuring _)⟩
    · intro hi
      rw [hstatus false (hlast.symm.trans hi), hstate]
      exact code_sat_iff _
    · intro hi
      rw [hstatus false (hlast.symm.trans hi), hstate]
      exact code_unsat_iff _
    · intro hi
      rw [hconc false (hlast.symm.trans hi), hstate]
      exact ⟨fun _ => state_ended _, fun _ => rfl⟩
    · intro hi
      rw [hstatus true (hlast.symm.trans hi), hconc true (hlast.symm.trans hi)]
      exact ⟨hc, hl, hn⟩
  · rw [hstate]
    exact state_ready _

theorem Ready.step {h : Handle} (hr : Ready h) (e : EntryCall)
    (hok : noCadicalError (entryStep h e).1 = true) : Ready (entryStep h e).2 := by
  have hdid := entry_cases hr.ready e hok
  generalize (entryStep h e).2 = h' at hdid
  cases hdid with
  | nothing hcore => exact hr.of_core hcore
  | added => exact .of_steady rfl rfl rfl rfl
  | constrained => exact .of_steady rfl rfl rfl rfl
  | reserved => exact .of_steady rfl rfl rfl rfl
  | solved => exact .of_finish rfl rfl rfl _ _ _
  | simplified => exact .of_finish rfl rfl rfl _ _ _

theorem ready_run {es : List EntryCall}
    (hok : Every entryStep (fun _ _ r => noCadicalError r = true) new es) :
    Ready (run entryStep new es) :=
  run_invariant (I := Ready) entryStep (fun _ e hr ho => hr.step e ho) ready_new hok

/-! ## Reading exactly when there is something to read -/

/-- The call returned. -/
def returned {α : Type} : Except RError α → Bool
  | .ok _ => true
  | .error _ => false

theorem Ready.value_iff {h : Handle} (hr : Ready h) {p : List ℤ} (hp : ∀ l ∈ p, ValidLit l)
    (hu : ∀ l ∈ p, h.solver.usable l = true) :
    returned ((zusatValue (.int p)).run h).1 = true ↔
      h.solver.state = .satisfied ∧ h.solver.lastInterrupted = false := by
  constructor
  · intro hret
    by_cases hl : h.lastStatus = 10
    · have hi : h.solver.lastInterrupted = false := by
        by_contra hc
        rw [(hr.interrupted (by simpa using hc)).2.1] at hl
        exact absurd hl (by decide)
      exact ⟨(hr.satisfied hi).mp hl, hi⟩
    · obtain ⟨t, ht⟩ := run_zusatValue_refused hl p
      rw [ht] at hret
      cases hret
  · rintro ⟨hs, hi⟩
    rw [run_zusatValue ((hr.satisfied hi).mpr hs) hs hp (fun l hl _ => hu l hl)]
    rfl

theorem Ready.failed_iff {h : Handle} (hr : Ready h) {p : List ℤ} (hp : ∀ l ∈ p, ValidLit l)
    (hu : ∀ l ∈ p, h.solver.usable l = true) :
    returned ((zusatFailed (.int p)).run h).1 = true ↔
      h.solver.state = .unsatisfied ∧ h.solver.lastInterrupted = false := by
  constructor
  · intro hret
    by_cases hl : h.lastStatus = 20
    · have hi : h.solver.lastInterrupted = false := by
        by_contra hc
        rw [(hr.interrupted (by simpa using hc)).2.1] at hl
        exact absurd hl (by decide)
      exact ⟨(hr.unsatisfied hi).mp hl, hi⟩
    · obtain ⟨t, ht⟩ := run_zusatFailed_refused hl p
      rw [ht] at hret
      cases hret
  · rintro ⟨hs, hi⟩
    rw [run_zusatFailed ((hr.unsatisfied hi).mpr hs) hs hp hu]
    rfl

theorem Ready.conclude_iff {h : Handle} (hr : Ready h) :
    returned (zusatConclude.run h).1 = true ↔
      h.solver.state.ended = true ∧ h.solver.lastInterrupted = false := by
  constructor
  · intro hret
    cases hc : h.concludable with
    | true =>
      have hi : h.solver.lastInterrupted = false := by
        by_contra hi
        rw [(hr.interrupted (by simpa using hi)).2.2] at hc
        cases hc
      exact ⟨(hr.concludable hi).mp hc, hi⟩
    | false =>
      obtain ⟨t, ht⟩ := run_zusatConclude_refused hc
      rw [ht] at hret
      cases hret
  · rintro ⟨hs, hi⟩
    rw [run_zusatConclude ((hr.concludable hi).mpr hs) hs]
    rfl

/-- The cached flags after every run of entry calls that CaDiCaL did not stop: each of them says
what CaDiCaL's state says unless the last search was interrupted, in which case all are down; so a
model, a core or a conclusion can be read exactly when CaDiCaL holds one. -/
theorem flags_mirror_state (es : List EntryCall)
    (hok : Every entryStep (fun _ _ r => noCadicalError r = true) new es) :
    let h := run entryStep new es
    (h.configuring = true ↔ h.solver.state = .configuring) ∧
    (h.solver.lastInterrupted = false →
      (h.lastStatus = 10 ↔ h.solver.state = .satisfied) ∧
      (h.lastStatus = 20 ↔ h.solver.state = .unsatisfied) ∧
      (h.concludable = true ↔ h.solver.state = .satisfied ∨ h.solver.state = .unsatisfied ∨
        h.solver.state = .inconclusive)) ∧
    (h.solver.lastInterrupted = true →
      h.configuring = false ∧ h.lastStatus = 0 ∧ h.concludable = false) ∧
    (∀ p : List ℤ, (∀ l ∈ p, ValidLit l ∧ h.solver.usable l = true) →
      (returned ((zusatValue (.int p)).run h).1 = true ↔
        h.solver.state = .satisfied ∧ h.solver.lastInterrupted = false) ∧
      (returned ((zusatFailed (.int p)).run h).1 = true ↔
        h.solver.state = .unsatisfied ∧ h.solver.lastInterrupted = false)) ∧
    (returned (zusatConclude.run h).1 = true ↔
      h.solver.state.ended = true ∧ h.solver.lastInterrupted = false) := by
  have hr := ready_run hok
  have hended : ∀ s : ApiState, s.ended = true ↔
      s = .satisfied ∨ s = .unsatisfied ∨ s = .inconclusive := by
    intro s
    cases s <;> decide
  refine ⟨hr.configuring, fun hi => ⟨hr.satisfied hi, hr.unsatisfied hi, ?_⟩, hr.interrupted,
    fun p hp => ⟨?_, ?_⟩, hr.conclude_iff⟩
  · rw [← hended]
    exact hr.concludable hi
  · exact hr.value_iff (fun l hl => (hp l hl).1) (fun l hl => (hp l hl).2)
  · exact hr.failed_iff (fun l hl => (hp l hl).1) (fun l hl => (hp l hl).2)

/-- The answer of a search that finds every variable true. -/
def allTrue (interrupted : Bool) : Answer :=
  ⟨.sat, interrupted, fun _ => true, fun _ => false, false, 0, .unsat⟩

/-- An interrupted solve can leave CaDiCaL satisfied with nothing to read. -/
theorem flags_mirror_state_interrupted :
    let es : List EntryCall := [.addClause (.int [1, 2]), .solve (.int [-1]) (fun _ => allTrue true)]
    let h := run entryStep new es
    Every entryStep (fun _ _ r => noCadicalError r = true) new es ∧
      h.solver.state = .satisfied ∧ h.lastStatus = 0 := by
  intro es h
  have hok : Every entryStep (fun _ _ r => noCadicalError r = true) new es :=
    ⟨by decide, by decide, trivial⟩
  obtain ⟨-, -, hdown, -⟩ := flags_mirror_state es hok
  exact ⟨hok, by decide, (hdown (by decide)).2.1⟩

end Handle
end Zusat
