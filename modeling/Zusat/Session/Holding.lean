import Zusat.Handle.OneShot
import Zusat.Session.Auxiliaries
import Zusat.Session.Entries

/-! # Holding a formula

After any run in which CaDiCaL raised no error, with `factor` and `factorcheck` at their defaults, the
session holds the clauses handed over and nothing else: no clause is half added, and nothing assumed
earlier is still in force. -/

namespace Zusat
open Foundations Foundations.Prog
set_option autoImplicit false

namespace Session

/-- The session holds `F` and nothing else: no clause begun, nothing assumed, and no constraint other
than a pending one. -/
structure Holds (s : Session) (F : List (List ℤ)) : Prop where
  ready : s.solver.state.ready = true
  off : FactorOff s.solver
  clauses : s.solver.clauses = F
  clause : s.solver.clause = []
  known : ∀ cl ∈ F, ∀ l ∈ cl, l.natAbs ≤ s.solver.maxVar
  assumptions : s.solver.transitionToSteadyState.assumptions = []
  constraint : s.handle.constraintPending = false →
    s.solver.transitionToSteadyState.constraint = []

theorem Holds.valid {s : Session} {F : List (List ℤ)} (h : Holds s F) :
    s.solver.state.valid = true := by
  rw [ApiState.valid, h.ready, Bool.true_or]

/-! ## Every run without an error from CaDiCaL -/

/-- Nothing is left over from an earlier call. -/
structure OneShotTracked (h : Handle) : Prop where
  oneShot : ∃ a, Handle.Refines h a
  clause : h.solver.clause = []

/-- A program keeps this of the handle unless CaDiCaL stops it. -/
def keepsTracked (h h' : Handle) : Prop := OneShotTracked h → OneShotTracked h'

def unlessStopped (e : RError) (h h' : Handle) : Prop := e.fromCadical = false → keepsTracked h h'

theorem oneShotTracked_new : OneShotTracked Handle.new := ⟨⟨_, Handle.refines_new⟩, rfl⟩

theorem OneShotTracked.of_core {h h' : Handle} (hn : OneShotTracked h) (hcore : Handle.core h' = Handle.core h) :
    OneShotTracked h' := by
  obtain ⟨a, ha⟩ := hn.oneShot
  exact ⟨⟨a, ha.of_core hcore⟩, (congrArg (·.solver.clause) hcore).trans hn.clause⟩

theorem OneShotTracked.step {h : Handle} (hn : OneShotTracked h) (e : EntryCall)
    (hok : noCadicalError (Handle.entryStep h e).1 = true) : OneShotTracked (Handle.entryStep h e).2 := by
  obtain ⟨a, ha⟩ := hn.oneShot
  refine ⟨⟨a.step e, ha.step e hok⟩, ?_⟩
  have hdid := Handle.entry_cases ha.ready e hok
  generalize (Handle.entryStep h e).2 = h' at hdid
  cases hdid with
  | nothing hcore => exact (congrArg (·.solver.clause) hcore).trans hn.clause
  | added => rfl
  | constrained => exact hn.clause
  | reserved => exact hn.clause
  | @solved x p ask =>
    exact (startSearch_clauses _).2.trans ((assuming_clauses h.solver p).2.trans hn.clause)
  | simplified => exact (startSearch_clauses _).2.trans hn.clause

theorem tracked_entrywise : Entrywise keepsTracked unlessStopped where
  law := ⟨fun _ => id, fun h h' hn => h' (h hn), fun h h' he hn => h' he (h hn)⟩
  stays := fun _ _ _ => id
  entry := by
    intro e h
    rcases hr : (Handle.entry e).run h with ⟨r, h'⟩
    have hstep : ∀ hn : OneShotTracked h, noCadicalError r = true → OneShotTracked h' := by
      intro hn hok
      have := hn.step e
      rw [Handle.entryStep, hr] at this
      exact this hok
    cases r with
    | ok a => exact fun hn => hstep hn rfl
    | error err => exact fun he hn => hstep hn (by rw [noCadicalError, he]; rfl)

theorem quiet_satTraceProof (path format binary : RValue) (canOpen : Bool) :
    Respects (Through fun h h' => Handle.core h' = Handle.core h)
      (satTraceProof path format binary canOpen) := by
  have law : Along (Through fun h h' => Handle.core h' = Handle.core h)
      (fun _ : RError => Through fun h h' => Handle.core h' = Handle.core h) :=
    along_view fun s : Session => Handle.core s.handle
  refine respects_satTraceProof law (fun nm _ v => ?_)
    (fun _ _ => Entrywise.follows_onHandle (Handle.quiet_zusatTraceProof _ _)) path format binary
    canOpen
  exact law.bind (law.ofExcept fun _ _ => law.refl) fun _ =>
    law.bind (law.ofExcept fun _ _ => law.refl) fun _ => law.bind law.read fun _ =>
      law.bind (law.require law.refl) fun _ =>
        Entrywise.follows_onHandle (Handle.quiet_zusatSetOption _ _)

theorem oneShotTracked_step {s : Session} (hn : OneShotTracked s.handle) (c : Call)
    (hok : noCadicalError (step s c).1 = true) : OneShotTracked (step s c).2.handle := by
  have htrace : ∀ path format binary canOpen, Entrywise.Follows keepsTracked unlessStopped
      (satTraceProof path format binary canOpen) := by
    intro path format binary canOpen s
    have hcore := (quiet_satTraceProof path format binary canOpen).snd s
    rcases hr : (satTraceProof path format binary canOpen).run s with ⟨r, s'⟩
    rw [hr] at hcore
    cases r with
    | ok a => exact fun hn => hn.of_core hcore
    | error e => exact fun _ hn => hn.of_core hcore
  have hmoves := tracked_entrywise.exported c htrace
  rcases hr : (exported c).run s with ⟨r, s'⟩
  rw [step, hr] at hok
  rw [step, hr]
  cases r with
  | ok a => exact hmoves.of_ok hr hn
  | error e => exact hmoves.of_error hr (by simpa [noCadicalError] using hok) hn

/-- The literals of the clauses are known. -/
def Known (s : Session) : Prop :=
  ∀ cl ∈ s.solver.clause :: s.solver.clauses, ∀ l ∈ cl, l.natAbs ≤ s.solver.maxVar

theorem known_step {s : Session} (hs : RangesKnown s) (hk : Known s) (c : Call) : Known (step s c).2 := by
  have hchange := step_change hs.settled c
  have hfrom : ∀ l, Cadical.From (fun _ => True) s.solver.clause (step s c).2.solver.maxVar l →
      l.natAbs ≤ (step s c).2.solver.maxVar := by
    rintro l (rfl | hmem | ⟨-, hle⟩)
    · exact Nat.zero_le _
    · exact le_trans (hk _ (List.mem_cons_self ..) l hmem) hchange.maxVar
    · exact hle
  intro cl hcl l hl
  rcases List.mem_cons.mp hcl with rfl | hcl
  · exact hfrom l (hchange.clause l hl)
  · obtain ⟨new, hnew, hnews⟩ := hchange.clauses
    rw [hnew] at hcl
    rcases List.mem_append.mp hcl with hcl | hcl
    · exact le_trans (hk cl (List.mem_cons_of_mem _ hcl) l hl) hchange.maxVar
    · exact hfrom l (hnews cl hcl l hl)

/-- The call leaves `factor` and `factorcheck` alone and CaDiCaL does not stop it. -/
def Undisturbed (c : Call) (res : Except RError CallResult) : Prop :=
  leavesFactor c ∧ noCadicalError res = true

theorem holds_after {cs : List Call} (hcs : Every step (fun _ c res => Undisturbed c res) new cs) :
    Holds (after cs) (after cs).solver.clauses := by
  let I : Session → Prop := fun s => RangesKnown s ∧ FactorOff s.solver ∧ OneShotTracked s.handle ∧ Known s
  have hnew : I new := ⟨rangesKnown_new, factorOff_init, oneShotTracked_new, by simp [Known, new, Handle.new, Cadical.init]⟩
  have hstep : ∀ s c, I s → Undisturbed c (step s c).1 → I (step s c).2 := by
    rintro s c ⟨hs, hoff, hn, hk⟩ ⟨hc, hok⟩
    exact ⟨rangesKnown_step hs c, hoff.change (step_change hs.settled c) hc.1 hc.2, oneShotTracked_step hn c hok,
      known_step hs hk c⟩
  obtain ⟨hs, hoff, ⟨⟨a, ha⟩, hclause⟩, hk⟩ :=
    run_invariant step (I := I) hstep hnew hcs
  refine ⟨ha.ready, hoff, rfl, hclause, fun cl hcl => hk cl (List.mem_cons_of_mem _ hcl),
    ha.assumptions, fun hidle => ?_⟩
  have hpending : a.pending = none := by
    have h := hidle.symm.trans ha.pending
    simpa using h.symm
  have hcon := ha.constraint
  rwa [hpending] at hcon

end Session
end Zusat
