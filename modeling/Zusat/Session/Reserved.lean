import Zusat.Session.Auxiliaries
import Zusat.Session.Refusals

/-! # Reserved variables

`sat_reserve` compares its number with the ranges recorded so far and makes CaDiCaL know the variables
up to it. From then on they are known variables of no range, and a new block lies above everything
known. -/

namespace Zusat
open Foundations Foundations.Prog
set_option autoImplicit false

namespace Session

theorem inAux_step {s : Session} (hs : RangesKnown s) {v : ℕ} (h : InAux s.aux v) (c : Call) :
    InAux (step s c).2.aux v := by
  rcases step_aux hs c with ⟨haux, -⟩ | ⟨r, haux, -⟩
  · rwa [haux]
  · obtain ⟨x, hx, hv⟩ := h
    rw [haux]
    exact ⟨x, List.mem_append_left _ hx, hv⟩

/-- Ranges stay recorded. -/
theorem inAux_run {s : Session} (hs : RangesKnown s) {v : ℕ} (h : InAux s.aux v) (cs : List Call) :
    InAux (run step s cs).aux v := by
  have hall : Every step (fun _ _ _ => True) s cs :=
    every_of_forall step (fun _ _ _ _ => trivial) s
  exact (run_invariant step (I := fun s => RangesKnown s ∧ InAux s.aux v)
    (fun _ c h _ => ⟨rangesKnown_step h.1 c, inAux_step h.1 h.2 c⟩) ⟨hs, h⟩ hall).2

/-- A call that reserves leaves everything as it was but the number of variables. -/
structure OnlyDeclares (s s' : Session) : Prop where
  clauses : s'.solver.clauses = s.solver.clauses
  clause : s'.solver.clause = s.solver.clause
  aux : s'.aux = s.aux
  pending : s'.handle.constraintPending = s.handle.constraintPending
  constraint : s'.solver.transitionToSteadyState.constraint =
    s.solver.transitionToSteadyState.constraint

section Reserve
variable {s : Session} {v : RValue} {n : ℕ}

theorem onlyDeclares_reserved (s : Session) (n : ℕ) :
    OnlyDeclares s (s.withHandle (Handle.reserved s.handle n)) := by
  rw [Handle.reserved]
  split
  · exact ⟨rfl, rfl, rfl, rfl, rfl⟩
  · exact ⟨rfl, rfl, rfl, rfl, rfl⟩

theorem reserved_maxVar (s : Session) (n : ℕ) :
    (s.withHandle (Handle.reserved s.handle n)).solver.maxVar = max s.solver.maxVar n :=
  Handle.reserved_maxVar s.handle n

theorem reserveHands_ok_iff {aux : List AuxRange} (hn : reserveCount v = .ok n) :
    reserveHands aux v = .ok n ↔ ∀ r ∈ aux, n < r.first := by
  unfold reserveHands
  rw [hn]
  dsimp only [bind, Except.bind]
  cases hfind : aux.find? (fun r => decide (r.first ≤ n)) with
  | some r =>
    refine ⟨fun h => (by cases h), fun h => ?_⟩
    have hle : r.first ≤ n := by simpa using List.find?_some hfind
    have := h r (List.mem_of_find?_eq_some hfind)
    omega
  | none =>
    refine ⟨fun _ r hr => ?_, fun _ => rfl⟩
    have := List.find?_eq_none.mp hfind r hr
    simpa using this

theorem reserveHands_eq {aux : List AuxRange} {m : ℕ} (hn : reserveCount v = .ok n)
    (hh : reserveHands aux v = .ok m) : m = n := by
  obtain ⟨m', hm', h⟩ := except_bind_ok.mp hh
  rw [hn] at hm'
  obtain rfl := Except.ok.inj hm'
  split at h
  · cases h
  · exact (Except.ok.inj h).symm

/-- A reserve is accepted exactly when no range starts at or below its number and, on a solver left in a
search, there is nothing to declare. -/
theorem reserve_iff (hs : RangesKnown s) (hn : reserveCount v = .ok n) :
    ((step s (.reserve v)).1 = .ok .unit ↔
        (∀ r ∈ s.aux, n < r.first) ∧ (s.solver.state = .solving → n ≤ s.solver.maxVar)) ∧
      ((step s (.reserve v)).1 = .ok .unit →
        (step s (.reserve v)).2 = s.withHandle (Handle.reserved s.handle n)) := by
  rw [← reserveHands_ok_iff hn]
  rcases hs.settled.valid_or_solving with hv | hsolving
  · have hstate : s.solver.state ≠ .solving := fun hsolving => by
      rw [hsolving] at hv
      cases hv
    rcases satReserve_cases hv v with ⟨e, hh, hrun⟩ | ⟨m, hh, -, hrun⟩
    · have hstep : step s (.reserve v) = (.error e, s) := run_unit hrun
      rw [hstep, hh]
      exact ⟨⟨nofun, fun h => by cases h.1⟩, nofun⟩
    · have hstep : step s (.reserve v) = (.ok .unit, _) := run_unit hrun
      rw [hstep, hh, reserveHands_eq hn hh]
      exact ⟨⟨fun _ => ⟨rfl, fun h => absurd h hstate⟩, fun _ => rfl⟩, fun _ => rfl⟩
  · rcases satReserve_cases_solving hsolving v with ⟨e, hh, hrun⟩ | ⟨m, hh, hle, hrun⟩ | ⟨m, hh, hlt, hrun⟩
    · have hstep : step s (.reserve v) = (.error e, s) := run_unit hrun
      rw [hstep, hh]
      exact ⟨⟨nofun, fun h => by cases h.1⟩, nofun⟩
    · have hstep : step s (.reserve v) = (.ok .unit, s) := run_unit hrun
      obtain rfl := reserveHands_eq hn hh
      have hreserved : Handle.reserved s.handle m = s.handle := if_neg (Nat.not_lt.mpr hle)
      rw [hstep, hh, hreserved]
      exact ⟨⟨fun _ => ⟨rfl, fun _ => hle⟩, fun _ => rfl⟩, fun _ => rfl⟩
    · have hstep : step s (.reserve v) = (.error _, _) := run_unit hrun
      obtain rfl := reserveHands_eq hn hh
      rw [hstep]
      exact ⟨⟨nofun, fun h => absurd (h.2 hsolving) (Nat.not_le.mpr hlt)⟩, nofun⟩

end Reserve

/-- The variables up to a reserved number are known for good, were and become no auxiliary variables,
and are never refused as such; the reserve itself changes nothing else, and two reserves count as one. -/
theorem reserve_lasts (before : List Call) (v : RValue) (n : ℕ) (hn : reserveCount v = .ok n)
    (hok : (step (after before) (.reserve v)).1 = .ok .unit) :
    (∀ earlier rest, before = earlier ++ rest → ∀ u, 1 ≤ u → u ≤ n →
      ¬InAux (after earlier).aux u) ∧
    (∀ later, (∃ m, (satNVars.run (after (before ++ .reserve v :: later))).1 = .ok m ∧ n ≤ m) ∧
      (∀ u, 1 ≤ u → u ≤ n → ¬InAux (after (before ++ .reserve v :: later)).aux u) ∧
      ∀ c, (∀ l ∈ literalArgs c, l.natAbs ≤ n) → ∀ arg u,
        (step (after (before ++ .reserve v :: later)) c).1 ≠ .error (.auxVariable arg u)) ∧
    OnlyDeclares (after before) (step (after before) (.reserve v)).2 ∧
    ∀ w m, reserveCount w = .ok m →
      (step (step (after before) (.reserve v)).2 (.reserve w)).1 = .ok .unit →
      ∀ x, reserveCount x = .ok (max n m) →
        (step (after before) (.reserve x)).1 = .ok .unit ∧
        (step (after before) (.reserve x)).2.solver.maxVar =
          (step (step (after before) (.reserve v)).2 (.reserve w)).2.solver.maxVar := by
  have hs := rangesKnown_after before
  have hs' := rangesKnown_step hs (.reserve v)
  obtain ⟨hfree, hknown⟩ := (reserve_iff hs hn).1.mp hok
  have hstep := (reserve_iff hs hn).2 hok
  have hnot : ∀ u, u ≤ n → ¬InAux (after before).aux u := by
    rintro u hu ⟨r, hr, hfirst, -⟩
    have := hfree r hr
    omega
  have hown : ∀ u : ℕ, u ≤ n → Own (step (after before) (.reserve v)).2 (u : ℤ) := by
    intro u hu
    have hmax := reserved_maxVar (after before) n
    rw [hstep]
    refine ⟨?_, ?_⟩
    · rw [(onlyDeclares_reserved _ n).aux]
      exact hnot u hu
    · rw [hmax]
      exact le_trans hu (le_max_right ..)
  refine ⟨fun earlier rest hsplit u _ hu hin => ?_, fun later => ?_, ?_, fun w m hm hok' x hx => ?_⟩
  · refine hnot u hu ?_
    rw [hsplit, after, run_append]
    exact inAux_run (rangesKnown_after earlier) hin rest
  · have hrun : after (before ++ .reserve v :: later) =
        run step (step (after before) (.reserve v)).2 later := run_append step new before _
    have hlast : ∀ u : ℕ, u ≤ n → Own (after (before ++ .reserve v :: later)) (u : ℤ) := by
      intro u hu
      rw [hrun]
      exact own_run hs' (hown u hu) later
    have hsl := rangesKnown_after (before ++ .reserve v :: later)
    refine ⟨⟨_, by rw [run_satNVars hsl.settled.valid_or_solving], ?_⟩, fun u _ hu => (hlast u hu).1, ?_⟩
    · exact (hlast n le_rfl).2
    · intro c hlits arg u he
      obtain ⟨hhit, l, hl, rfl⟩ := refuses_step he arg u rfl
      exact (hlast l.natAbs (hlits l hl)).1 ((hitsAux_iff hsl.increasing _).mp hhit)
  · rw [hstep]
    exact onlyDeclares_reserved _ n
  · obtain ⟨hfree', hknown'⟩ := (reserve_iff hs' hm).1.mp hok'
    have haux : (step (after before) (.reserve v)).2.aux = (after before).aux := by
      rw [hstep]
      exact (onlyDeclares_reserved _ n).aux
    rw [haux] at hfree'
    have hokx : (step (after before) (.reserve x)).1 = .ok .unit :=
      (reserve_iff hs hx).1.mpr ⟨fun r hr => max_lt (hfree r hr) (hfree' r hr), fun hsolving => by
        have hsame := (step_stands hsolving (.reserve v)).2
        rw [hsame] at hknown'
        exact max_le (hknown hsolving) (hknown' hsolving)⟩
    refine ⟨hokx, ?_⟩
    rw [(reserve_iff hs hx).2 hokx, (reserve_iff hs' hm).2 hok', reserved_maxVar, reserved_maxVar, hstep,
      reserved_maxVar, max_assoc]

theorem reserve_lasts_two :
    (step (after []) (.reserve (.ints [2]))).1 = .ok .unit ∧
      ∀ later, ∃ m, (satNVars.run (after ([] ++ .reserve (.ints [2]) :: later))).1 = .ok m ∧ 2 ≤ m :=
  ⟨rfl, fun later => ((reserve_lasts [] (.ints [2]) 2 rfl rfl).2.1 later).1⟩

end Session
end Zusat
