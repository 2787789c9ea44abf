import Zusat.Session.Cardinality
import Zusat.Session.Evolves
import Zusat.Cardinality.Shape
import Mathlib.Data.List.Induction

/-! # What holds of every session

The ranges are kept in R while the floor of a new block comes from CaDiCaL's variable count. `RangesKnown` is
what ties the two together, and every call keeps it, whether it is accepted or refused. -/

namespace Zusat
open Foundations Foundations.Prog
set_option autoImplicit false

namespace Session

structure RangesKnown (s : Session) : Prop where
  settled : s.solver.Settled
  increasing : Increasing s.aux
  last_le : ∀ r ∈ s.aux, r.last ≤ s.solver.maxVar
  three_le : ∀ r ∈ s.aux, 3 ≤ r.first
  molten_le : ∀ v, s.solver.moltentab v = true → v ≤ s.solver.maxVar

theorem rangesKnown_new : RangesKnown new := by
  refine ⟨.inl rfl, List.Pairwise.nil, ?_, ?_, ?_⟩
  · intro r hr
    cases hr
  · intro r hr
    cases hr
  · intro v hv
    cases hv

theorem RangesKnown.inAux_le {s : Session} (hs : RangesKnown s) {v : ℕ} (hv : InAux s.aux v) :
    3 ≤ v ∧ v ≤ s.solver.maxVar := by
  obtain ⟨r, hr, hfirst, hlast⟩ := hv
  have h1 := hs.three_le r hr
  have h2 := hs.last_le r hr
  omega

theorem RangesKnown.not_inAux_zero {s : Session} (hs : RangesKnown s) : ¬InAux s.aux 0 := by
  intro h
  have := hs.inAux_le h
  omega

theorem covers_all (A : List AuxRange) : Covers A fun _ => True := fun _ _ _ _ _ => trivial

theorem RangesKnown.covers {s : Session} (hs : RangesKnown s) : Covers s.aux fun l => ¬InAux s.aux l.natAbs :=
  fun lits arg h => (checkNotAux_ok_iff hs.increasing lits arg).mp h

/-! ## A cardinality call -/

section Cardinality
variable {s : Session} {b : Bound} {literals k encoding : RValue}

theorem change_satCardinality (hs : s.solver.Settled) {K : ℤ → Prop}
    (L : ℤ → Prop) (N : String → Prop)
    (hK : ∀ a, cardHands s.aux s.solver.maxVar b literals k encoding = .ok a →
      ∀ cl ∈ a.2.2.clauses, ∀ l ∈ cl, K l) :
    Cadical.Change K L N s.solver ((satCardinality b literals k encoding).run s).2.solver := by
  rw [run_satCardinality hs.valid_or_solving]
  cases hh : cardHands s.aux s.handle.solver.maxVar b literals k encoding with
  | error e => exact .refl hs
  | ok a =>
    rw [run_bind, run_ofExcept_ok, andThen_ok, run_bind]
    have hkeeps := (keeps_addClauses (A := s.aux) (L := L) (N := N) (hK a hh)).snd s rfl
    rcases hadd : (addClauses a.2.2.clauses).run s with ⟨r, s'⟩
    rw [hadd] at hkeeps
    cases r with
    | error e => exact hkeeps.2.1 hs
    | ok u =>
      change Cadical.Change K L N s.solver (recordAux _ _ s').solver
      rw [recordAux]
      split <;> exact hkeeps.2.1 hs

end Cardinality

/-! ## One call and whole runs -/

theorem RangesKnown.of_keeps {s s' : Session} {K L : ℤ → Prop} {N : String → Prop} (hs : RangesKnown s)
    (haux : s'.aux = s.aux) (hchange : Cadical.Change K L N s.solver s'.solver) : RangesKnown s' where
  settled := hchange.settled
  increasing := haux ▸ hs.increasing
  last_le r hr := le_trans (hs.last_le r (haux ▸ hr)) hchange.maxVar
  three_le r hr := hs.three_le r (haux ▸ hr)
  molten_le := hchange.molten hs.molten_le

theorem RangesKnown.of_recorded {s s' : Session} {K L : ℤ → Prop} {N : String → Prop} (hs : RangesKnown s)
    {r : AuxRange} (haux : s'.aux = s.aux ++ [r])
    (hchange : Cadical.Change K L N s.solver s'.solver) (hfirst : s.solver.maxVar < r.first)
    (hthree : 3 ≤ r.first) (hlast : r.last ≤ s'.solver.maxVar) : RangesKnown s' where
  settled := hchange.settled
  increasing := by
    rw [haux, Increasing, List.pairwise_append]
    refine ⟨hs.increasing, List.pairwise_singleton .., fun a ha b hb => ?_⟩
    rw [List.mem_singleton.mp hb]
    have := hs.last_le a ha
    omega
  last_le x hx := by
    rcases List.mem_append.mp (haux ▸ hx) with hx | hx
    · exact le_trans (hs.last_le x hx) hchange.maxVar
    · rwa [List.mem_singleton.mp hx]
  three_le x hx := by
    rcases List.mem_append.mp (haux ▸ hx) with hx | hx
    · exact hs.three_le x hx
    · rwa [List.mem_singleton.mp hx]
  molten_le := hchange.molten hs.molten_le

theorem step_keeps {s : Session} {c : Call} {K L : ℤ → Prop} (hcov : Covers s.aux L)
    (hLK : ∀ l, L l → K l ∧ K (-l)) (hdefault : defaultProjection c → ∀ l, K l)
    (hcard : ∀ b ls k e, c ≠ .cardinality b ls k e) (hs : s.solver.Settled) :
    (step s c).2.aux = s.aux ∧
      Cadical.Change K L (setsOption c) s.solver (step s c).2.solver := by
  obtain ⟨haux, hev⟩ := (keeps_exported hcov hLK c hdefault hcard).snd s rfl
  exact ⟨haux, hev.1 hs⟩

/-- A call that returns nothing. -/
theorem run_unit {s s' : Session} {m : SessionM Unit} {r : Except RError Unit}
    (h : m.run s = (r, s')) :
    (m >>= fun _ => pure CallResult.unit).run s = (r.map fun _ => .unit, s') := by
  rw [run_bind_pure, h]

theorem step_cardinality (s : Session) (b : Bound) (literals k encoding : RValue) :
    (step s (.cardinality b literals k encoding)).2 =
      ((satCardinality b literals k encoding).run s).2 :=
  congrArg Prod.snd (run_bind_pure _ _ s)

/-- Two literals of different variables reach variable 2. -/
theorem two_le_auxFloor {ls : List ℤ} (hlen : 2 ≤ ls.length) (h0 : ∀ l ∈ ls, l ≠ 0)
    (hd : (ls.map Int.natAbs).Nodup) (n : ℕ) : 2 ≤ auxFloor n ls := by
  match ls, hlen with
  | x :: y :: ls, _ =>
    have hxy : x.natAbs ≠ y.natAbs := by
      intro h
      rw [List.map_cons, List.map_cons, h] at hd
      exact (List.nodup_cons.mp hd).1 (List.mem_cons_self ..)
    have hx := natAbs_le_auxFloor n x (List.mem_cons_self (a := x) (l := y :: ls))
    have hy := natAbs_le_auxFloor n y (show y ∈ x :: y :: ls by simp)
    have := h0 x (by simp)
    have := h0 y (by simp)
    omega

theorem CardPlan.two_le_floor {aux : List AuxRange} {n : ℕ} {b : Bound} {literals k : RValue}
    {a : List ℤ × ℕ × Encoded} (h : CardPlan aux n b literals k a)
    (htop : auxFloor n a.1 < a.2.2.top) : 2 ≤ auxFloor n a.1 := by
  obtain ⟨e, he⟩ := h.encode
  exact two_le_auxFloor (b.encode_wide he htop) (fun l hl => (h.valid l hl).1) h.distinct n

theorem step_change {s : Session} (hs : s.solver.Settled) (c : Call) :
    Cadical.Change (fun _ => True) (fun _ => True) (setsOption c) s.solver (step s c).2.solver := by
  by_cases hcard : ∃ b ls k e, c = .cardinality b ls k e
  · obtain ⟨b, ls, k, e, rfl⟩ := hcard
    rw [step_cardinality]
    exact change_satCardinality hs _ _ (fun _ _ _ _ _ _ => trivial)
  · exact (step_keeps (covers_all s.aux) (fun _ _ => ⟨trivial, trivial⟩) (fun _ _ => trivial)
      (fun b ls k e h => hcard ⟨b, ls, k, e, h⟩) hs).2

/-- A solver left in a search stays as it is, and no range is recorded beside it. -/
theorem step_stands {s : Session} (hs : s.solver.state = .solving) (c : Call) :
    (step s c).2.aux = s.aux ∧ (step s c).2.solver = s.solver := by
  by_cases hcard : ∃ b ls k e, c = .cardinality b ls k e
  · obtain ⟨b, ls, k, e, rfl⟩ := hcard
    rw [step_cardinality]
    rcases satCardinality_cases_solving hs b ls k e with ⟨e, -, hrun⟩ | ⟨a, -, -, -, hrun⟩ | ⟨a, -, -, hrun⟩ <;>
      rw [hrun] <;> exact ⟨rfl, rfl⟩
  · obtain ⟨haux, hev⟩ := (keeps_exported (K := fun _ => True) (covers_all s.aux)
      (fun _ _ => ⟨trivial, trivial⟩) c (fun _ _ => trivial)
      (fun b ls k e h => hcard ⟨b, ls, k, e, h⟩)).snd s rfl
    exact ⟨haux, hev.2 hs⟩

/-- What a cardinality call allocates: the variables of its clauses that are not its own. -/
def allocated (a : List ℤ × ℕ × Encoded) (v : ℕ) : Prop :=
  (∃ cl ∈ a.2.2.clauses, ∃ l ∈ cl, l.natAbs = v) ∧ ∀ l ∈ a.1, l.natAbs ≠ v

/-- A cardinality call was accepted and allocated the variable. -/
def IntroducedBy (s : Session) (c : Call) (v : ℕ) : Prop :=
  ∃ b literals k encoding a, c = .cardinality b literals k encoding ∧
    (step s c).1 = .ok .unit ∧
    cardHands s.aux s.solver.maxVar b literals k encoding = .ok a ∧ allocated a v

theorem CardPlan.allocated_iff {aux : List AuxRange} {n : ℕ} {b : Bound} {literals k : RValue}
    {a : List ℤ × ℕ × Encoded} (h : CardPlan aux n b literals k a) (v : ℕ) :
    allocated a v ↔ inBlock (auxFloor n a.1) a.2.2.top v := by
  constructor
  · rintro ⟨⟨cl, hcl, l, hl, rfl⟩, hown⟩
    rcases (h.encodes.lits cl hcl l hl).2 with ⟨x, hx, hxl⟩ | hb
    · exact absurd hxl (hown x hx)
    · exact hb
  · intro hb
    refine ⟨h.encodes.uses v hb, fun l hl hlv => ?_⟩
    have := natAbs_le_auxFloor n l hl
    have := hb.1
    omega

/-- On a solver left in a search nothing is allocated. -/
theorem not_introduced_solving {s : Session} (hs : s.solver.state = .solving) {c : Call} {v : ℕ} :
    ¬IntroducedBy s c v := by
  rintro ⟨b, ls, k, e, a, rfl, hok, hh, ⟨cl, hcl, -⟩, -⟩
  rcases satCardinality_cases_solving hs b ls k e with
    ⟨err, hh', -⟩ | ⟨a', hh', hnil, -, -⟩ | ⟨a', -, -, hrun⟩
  · rw [hh] at hh'
    cases hh'
  · obtain rfl := Except.ok.inj (hh.symm.trans hh')
    rw [hnil] at hcl
    cases hcl
  · rw [step, exported, run_bind, hrun] at hok
    cases hok

/-- A call leaves the ranges alone and allocates nothing, or it is a cardinality call and records one
range above everything known so far, of exactly the variables it allocated. -/
theorem step_aux {s : Session} (hs : RangesKnown s) (c : Call) :
    ((step s c).2.aux = s.aux ∧ ∀ v, ¬IntroducedBy s c v) ∨
      ∃ r, (step s c).2.aux = s.aux ++ [r] ∧ max 2 s.solver.maxVar < r.first ∧
        r.last ≤ (step s c).2.solver.maxVar ∧
        ∀ v, r.first ≤ v ∧ v ≤ r.last ↔ IntroducedBy s c v := by
  by_cases hcard : ∃ b ls k e, c = .cardinality b ls k e
  · obtain ⟨b, ls, k, e, rfl⟩ := hcard
    rcases hs.settled.valid_or_solving with hv | hsolving
    swap
    · exact .inl ⟨(step_stands hsolving _).1, fun v => not_introduced_solving hsolving⟩
    rw [step_cardinality]
    rcases satCardinality_cases hv b ls k e with
      ⟨err, hh, hrun⟩ | ⟨a, hh, -, hrun⟩ | ⟨a, done, q, l, err, hh, -, -, -, hrun⟩
    · refine .inl ⟨by rw [hrun], ?_⟩
      rintro v ⟨b', ls', k', e', a, hc, -, hh', -⟩
      cases hc
      rw [hh] at hh'
      cases hh'
    · have hplan := cardHands_ok hh
      have hintro : ∀ v, IntroducedBy s (.cardinality b ls k e) v ↔
          inBlock (auxFloor s.solver.maxVar a.1) a.2.2.top v := by
        intro v
        rw [← hplan.allocated_iff]
        constructor
        · rintro ⟨b', ls', k', e', a', hc, -, hh', ha⟩
          cases hc
          rw [hh] at hh'
          obtain rfl := Except.ok.inj hh'
          exact ha
        · exact fun ha => ⟨b, ls, k, e, a, rfl, by rw [step, exported, run_bind, hrun]; rfl, hh, ha⟩
      rw [hrun]
      by_cases h : auxFloor s.solver.maxVar a.1 < a.2.2.top
      · right
        have htwo := hplan.two_le_floor h
        have hmax : s.solver.maxVar ≤ auxFloor s.solver.maxVar a.1 := le_max_left ..
        refine ⟨⟨auxFloor s.solver.maxVar a.1 + 1, a.2.2.top, h⟩, ?_, ?_, ?_, fun v => ?_⟩
        · rw [encodedBy, recordAux, dif_pos h]
          rfl
        · exact Nat.lt_succ_of_le (max_le htwo hmax)
        · obtain ⟨cl, hcl, l, hl, htop⟩ := hplan.encodes.uses a.2.2.top ⟨h, le_rfl⟩
          have hle := natAbs_le_topVar (List.mem_flatten.mpr ⟨cl, hcl, hl⟩)
          have := encodedBy_maxVar s a
          show a.2.2.top ≤ (encodedBy s a).solver.maxVar
          omega
        · rw [hintro]
          exact Iff.rfl
      · refine .inl ⟨by rw [encodedBy, recordAux, dif_neg h]; rfl, fun v hv => ?_⟩
        have := (hintro v).mp hv
        exact h (lt_of_lt_of_le this.1 this.2)
    · refine .inl ⟨by rw [hrun]; rfl, ?_⟩
      rintro v ⟨b', ls', k', e', a', hc, hok, -⟩
      rw [step, exported, run_bind, hrun] at hok
      cases hok
  · refine .inl ⟨(step_keeps (K := fun _ => True) (covers_all s.aux) (fun _ _ => ⟨trivial, trivial⟩)
      (fun _ _ => trivial) (fun b ls k e h => hcard ⟨b, ls, k, e, h⟩) hs.settled).1, ?_⟩
    rintro v ⟨b, ls, k, e, a, hc, -⟩
    exact hcard ⟨b, ls, k, e, hc⟩

theorem rangesKnown_step {s : Session} (hs : RangesKnown s) (c : Call) : RangesKnown (step s c).2 := by
  have hchange := step_change hs.settled c
  rcases step_aux hs c with ⟨haux, -⟩ | ⟨r, haux, hfirst, hlast, -⟩
  · exact hs.of_keeps haux hchange
  · exact hs.of_recorded haux hchange (by omega) (by omega) hlast

/-- A known variable that is no auxiliary variable does not become one. -/
theorem not_inAux_step {s : Session} (hs : RangesKnown s) {v : ℕ} (hv : ¬InAux s.aux v)
    (hle : v ≤ max 2 s.solver.maxVar) (c : Call) : ¬InAux (step s c).2.aux v := by
  rcases step_aux hs c with ⟨haux, -⟩ | ⟨r, haux, hfirst, -⟩
  · rw [haux]
    exact hv
  · rw [haux]
    rintro ⟨x, hx, hxfirst, hxlast⟩
    rcases List.mem_append.mp hx with hx | hx
    · exact hv ⟨x, hx, hxfirst, hxlast⟩
    · rw [List.mem_singleton.mp hx] at hxfirst
      omega

theorem rangesKnown_after (cs : List Call) : RangesKnown (after cs) := by
  have hall : Every step (fun _ _ _ => True) new cs :=
    every_of_forall step (fun _ _ _ _ => trivial) new
  exact run_invariant step (I := RangesKnown) (fun _ c h _ => rangesKnown_step h c) rangesKnown_new hall

theorem after_snoc (cs : List Call) (c : Call) : after (cs ++ [c]) = (step (after cs) c).2 :=
  run_snoc step new cs c

/-! ## Which call introduced a variable -/

/-- Some call of the run introduced the variable. -/
def Introduced (cs : List Call) (v : ℕ) : Prop :=
  ∃ before c later, cs = before ++ c :: later ∧ IntroducedBy (after before) c v

theorem split_snoc {α : Type} {xs before later : List α} {x y : α} :
    xs ++ [x] = before ++ y :: later ↔ (xs = before ∧ x = y ∧ later = []) ∨
      ∃ later', later = later' ++ [x] ∧ xs = before ++ y :: later' := by
  constructor
  · intro h
    rcases List.eq_nil_or_concat later with rfl | ⟨later', z, rfl⟩
    · obtain ⟨h1, h2⟩ := List.append_inj' h rfl
      exact .inl ⟨h1, (List.cons.inj h2).1, rfl⟩
    · rw [List.concat_eq_append, ← List.cons_append, ← List.append_assoc] at h
      obtain ⟨h1, h2⟩ := List.append_inj' h rfl
      exact .inr ⟨later', by rw [List.concat_eq_append, (List.cons.inj h2).1], h1⟩
  · rintro (⟨rfl, rfl, rfl⟩ | ⟨later', rfl, rfl⟩)
    · rfl
    · simp

theorem introduced_snoc {cs : List Call} {c : Call} {v : ℕ} :
    Introduced (cs ++ [c]) v ↔ Introduced cs v ∨ IntroducedBy (after cs) c v := by
  constructor
  · rintro ⟨before, d, later, hsplit, h⟩
    rcases split_snoc.mp hsplit with ⟨rfl, rfl, -⟩ | ⟨later', -, hcs⟩
    · exact .inr h
    · exact .inl ⟨before, d, later', hcs, h⟩
  · rintro (⟨before, d, later, rfl, h⟩ | h)
    · exact ⟨before, d, later ++ [c], by simp, h⟩
    · exact ⟨cs, c, [], rfl, h⟩

/-- The ranges hold exactly the variables that calls of the run introduced. -/
theorem inAux_iff_introduced (cs : List Call) (v : ℕ) :
    InAux (after cs).aux v ↔ Introduced cs v := by
  induction cs using List.reverseRecOn with
  | nil =>
    refine ⟨fun h => absurd h (not_inAux_nil v), ?_⟩
    rintro ⟨before, c, later, h, -⟩
    exact absurd h.symm (by simp)
  | append_singleton cs c ih =>
    rw [introduced_snoc, ← ih, after_snoc]
    rcases step_aux (rangesKnown_after cs) c with ⟨haux, hnone⟩ | ⟨r, haux, -, -, hr⟩
    · rw [haux]
      exact ⟨.inl, fun h => h.resolve_right (hnone v)⟩
    · rw [haux, ← hr]
      constructor
      · rintro ⟨x, hx, hv⟩
        rcases List.mem_append.mp hx with hx | hx
        · exact .inl ⟨x, hx, hv⟩
        · rw [List.mem_singleton.mp hx] at hv
          exact .inr hv
      · rintro (⟨x, hx, hv⟩ | hv)
        · exact ⟨x, List.mem_append_left _ hx, hv⟩
        · exact ⟨r, List.mem_append_right _ (List.mem_singleton.mpr rfl), hv⟩

/-- Each range holds what one call introduced. -/
theorem range_of_call (cs : List Call) {r : AuxRange} (hr : r ∈ (after cs).aux) :
    ∃ before c later, cs = before ++ c :: later ∧
      ∀ v, r.first ≤ v ∧ v ≤ r.last ↔ IntroducedBy (after before) c v := by
  induction cs using List.reverseRecOn with
  | nil => cases hr
  | append_singleton cs c ih =>
    rw [after_snoc] at hr
    have hold : r ∈ (after cs).aux → ∃ before d later, cs ++ [c] = before ++ d :: later ∧
        ∀ v, r.first ≤ v ∧ v ≤ r.last ↔ IntroducedBy (after before) d v := by
      intro h
      obtain ⟨before, d, later, rfl, hiff⟩ := ih h
      exact ⟨before, d, later ++ [c], by simp, hiff⟩
    rcases step_aux (rangesKnown_after cs) c with ⟨haux, -⟩ | ⟨x, haux, -, -, hx⟩
    · exact hold (haux ▸ hr)
    · rw [haux] at hr
      rcases List.mem_append.mp hr with hr | hr
      · exact hold hr
      · rw [List.mem_singleton.mp hr]
        exact ⟨cs, c, [], rfl, hx⟩

/-! ## The recorded end -/

/-- A call that records a block has declared its last variable and nothing above it. -/
theorem recorded_last {s : Session} (hs : RangesKnown s) {b : Bound} {literals k encoding : RValue}
    {r : AuxRange} (haux : (step s (.cardinality b literals k encoding)).2.aux = s.aux ++ [r]) :
    (step s (.cardinality b literals k encoding)).2.solver.maxVar = r.last := by
  have hkept : s.aux ≠ s.aux ++ [r] := by simp
  have hv : s.solver.state.valid = true := hs.settled.valid_or_solving.resolve_right fun hsolving =>
    hkept ((step_stands hsolving _).1.symm.trans haux)
  rw [step_cardinality] at haux ⊢
  rcases satCardinality_cases hv b literals k encoding with
    ⟨e, -, hrun⟩ | ⟨a, hh, -, hrun⟩ | ⟨a, done, q, l, e, -, -, -, -, hrun⟩
  · rw [hrun] at haux
    exact absurd haux hkept
  · rw [hrun] at haux ⊢
    have hplan := cardHands_ok hh
    by_cases h : auxFloor s.solver.maxVar a.1 < a.2.2.top
    · rw [encodedBy, recordAux, dif_pos h] at haux
      have hr : r = ⟨auxFloor s.solver.maxVar a.1 + 1, a.2.2.top, h⟩ :=
        (List.singleton_injective (List.append_cancel_left haux)).symm
      obtain ⟨cl, hcl, l, hl, htop⟩ := hplan.encodes.uses a.2.2.top ⟨h, le_rfl⟩
      have hge := natAbs_le_topVar (List.mem_flatten.mpr ⟨cl, hcl, hl⟩)
      have hle : topVar a.2.2.clauses.flatten ≤ a.2.2.top := by
        refine topVar_le fun x hx => ?_
        obtain ⟨cl', hcl', hx⟩ := List.mem_flatten.mp hx
        rcases (hplan.encodes.lits cl' hcl' x hx).2 with ⟨y, hy, hyx⟩ | hb
        · have := natAbs_le_auxFloor s.solver.maxVar y hy
          omega
        · exact hb.2
      have hfloor : s.solver.maxVar ≤ auxFloor s.solver.maxVar a.1 := le_max_left ..
      rw [encodedBy_maxVar, hr]
      change max s.solver.maxVar (topVar a.2.2.clauses.flatten) = a.2.2.top
      omega
    · rw [encodedBy, recordAux, dif_neg h] at haux
      exact absurd haux hkept
  · rw [hrun] at haux
    exact absurd haux hkept

/-- An accepted call whose encoding goes above the floor records the block in between, which ends at the
last variable there is. -/
theorem accepted_records {s : Session} (hs : RangesKnown s) {b : Bound} {literals k encoding : RValue}
    {a : List ℤ × ℕ × Encoded}
    (hhands : cardHands s.aux s.solver.maxVar b literals k encoding = .ok a) {out : CallResult}
    (hout : (step s (.cardinality b literals k encoding)).1 = .ok out)
    (habove : auxFloor s.solver.maxVar a.1 < a.2.2.top) :
    (step s (.cardinality b literals k encoding)).2.aux =
      s.aux ++ [⟨auxFloor s.solver.maxVar a.1 + 1, a.2.2.top, habove⟩] := by
  have hv : s.solver.state.valid = true := hs.settled.valid_or_solving.resolve_right fun hsolving => by
    rcases satCardinality_cases_solving hsolving b literals k encoding with
      ⟨e, hh, -⟩ | ⟨a', hh, hnil, -, -⟩ | ⟨a', -, -, hrun⟩
    · rw [hhands] at hh
      cases hh
    · obtain rfl := Except.ok.inj (hhands.symm.trans hh)
      exact (cardHands_ok hhands).top_le_of_nil hnil habove
    · have hstep : step s (.cardinality b literals k encoding) = _ := run_unit hrun
      rw [hstep] at hout
      cases hout
  rcases satCardinality_cases hv b literals k encoding with
    ⟨e, -, hrun⟩ | ⟨a', hh, -, hrun⟩ | ⟨a', done, q, l, e, -, -, -, -, hrun⟩ <;>
    have hstep : step s (.cardinality b literals k encoding) = _ := run_unit hrun <;>
    rw [hstep] at hout ⊢
  · cases hout
  · obtain rfl : a = a' := Except.ok.inj (hhands.symm.trans hh)
    change (encodedBy s a).aux = _
    rw [encodedBy, recordAux, dif_pos habove]
    rfl
  · cases hout

/-- The counter has the clauses and variables it should and no clause is degenerate. An accepted call
whose encoding goes above the floor records its block, and whenever a call records one `sat_n_vars` is
the recorded end. -/
theorem sequential_counter_shape :
    (∀ (ls : List ℤ) (k top : ℕ), (∀ l ∈ ls, l ≠ 0) → (∀ l ∈ ls, l.natAbs ≤ top) → 1 ≤ k →
      k < ls.length → CounterShape ls k top (encodeSequential ls k top)) ∧
    (∀ (cs : List Call) (b : Bound) (literals k encoding : RValue) (a : List ℤ × ℕ × Encoded)
      (out : CallResult),
      cardHands (after cs).aux (after cs).solver.maxVar b literals k encoding = .ok a →
      (step (after cs) (.cardinality b literals k encoding)).1 = .ok out →
      auxFloor (after cs).solver.maxVar a.1 < a.2.2.top →
      ∃ r : AuxRange, r.first = auxFloor (after cs).solver.maxVar a.1 + 1 ∧ r.last = a.2.2.top ∧
        (step (after cs) (.cardinality b literals k encoding)).2.aux = (after cs).aux ++ [r]) ∧
    ∀ (cs : List Call) (b : Bound) (literals k encoding : RValue) (r : AuxRange),
      (step (after cs) (.cardinality b literals k encoding)).2.aux = (after cs).aux ++ [r] →
      (satNVars.run (step (after cs) (.cardinality b literals k encoding)).2).1 = .ok r.last := by
  refine ⟨fun ls k top hls htop hk hkn => counterShape hls htop hk hkn,
    fun cs b literals k encoding a out hhands hout habove =>
      ⟨_, rfl, rfl, accepted_records (rangesKnown_after cs) hhands hout habove⟩,
    fun cs b literals k encoding r haux => ?_⟩
  have hs := rangesKnown_after cs
  rw [run_satNVars (rangesKnown_step hs _).settled.valid_or_solving]
  exact congrArg Except.ok (recorded_last hs haux)

/-- Three literals and the bound 1: the counter is variables 4 and 5, the block is recorded and 5 is the
last variable. -/
theorem sequential_counter_shape_three :
    let s := (step (after []) (.cardinality .atMost (.ints [1, 2, 3]) (.ints [1])
      (.chr [some "sequential"]))).2
    CounterShape [1, 2, 3] 1 3 (encodeSequential [1, 2, 3] 1 3) ∧
      (∃ r : AuxRange, r.first = 4 ∧ r.last = 5 ∧ s.aux = [r]) ∧ (satNVars.run s).1 = .ok 5 :=
  ⟨sequential_counter_shape.1 [1, 2, 3] 1 3 (by decide) (by decide) (by decide) (by decide),
    sequential_counter_shape.2.1 [] .atMost (.ints [1, 2, 3]) (.ints [1]) (.chr [some "sequential"])
      ([1, 2, 3], 1, encodeSequential [1, 2, 3] 1 3) .unit rfl rfl (by decide),
    sequential_counter_shape.2.2 [] .atMost (.ints [1, 2, 3]) (.ints [1]) (.chr [some "sequential"])
      ⟨4, 5, by decide⟩ rfl⟩

end Session
end Zusat
