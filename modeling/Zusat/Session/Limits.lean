import Zusat.Model.Limits
import Zusat.Handle.Flags
import Zusat.Session.Invariants
import Zusat.Session.Reaches
import Zusat.Session.Solutions

/-! # Limits last one search

`sat_limit` promises that a limit is used up by the next search. Inside CaDiCaL the limits are reset when a
search returns, so the search after it starts without any, also within one enumeration. A search that does
not return, because its result failed a check, is the last one of all. -/

namespace Zusat
open Foundations Foundations.Prog
set_option autoImplicit false

/-! ## What the API functions do to the limits -/

namespace Cadical

/-- Neither the searches made nor the limits set have changed. -/
def SameLimits (c c' : Cadical) : Prop := (c'.searches, c'.limits) = (c.searches, c.limits)

/-- The program leaves both alone however it ends. -/
abbrev Spares {α : Type} (m : CadicalM α) : Prop := Respects SameLimits m

theorem along_sameLimits : Along SameLimits (fun _ : RError => SameLimits) :=
  along_view fun c : Cadical => (c.searches, c.limits)

theorem spares_looks {α : Type} {m : CadicalM α} (hm : Looks m) : Spares m := by
  apply respects_of_snd
  intro c
  rw [hm.snd c]
  rfl

theorem spares_modify {f : Cadical → Cadical} (hf : ∀ c, SameLimits c (f c)) :
    Spares (modify f : CadicalM Unit) := Moves.modify hf

theorem spares_internalize (l : ℤ) : Spares (internalize l) := by
  have law := along_sameLimits
  exact law.doIf (law.bind (spares_modify fun _ => rfl) fun _ => law.bind law.read fun _ =>
    law.doIf (law.require law.refl))

theorem spares_add (l : ℤ) : Spares (add l) := by
  have law := along_sameLimits
  have hdeclared : Spares (requireDeclared l) :=
    law.bind law.read fun _ => law.bind (law.doIf (law.require law.refl)) fun _ =>
      law.doIf (law.require law.refl)
  have hexternal : Spares (externalAdd l) := by
    have hsave : Spares (modify (saveOriginal l) : CadicalM Unit) := spares_modify fun c => by
      unfold saveOriginal
      split <;> rfl
    refine law.bind law.read fun _ => law.bind (law.doIf (law.require law.refl)) fun _ =>
      law.bind hsave fun _ => law.bind (spares_internalize l) fun _ => ?_
    split <;> exact spares_modify fun _ => rfl
  exact law.bind (spares_looks (looks_requireValidState _)) fun _ => law.bind (law.doIf hdeclared) fun _ =>
    law.bind (law.doIf (spares_looks (looks_requireValidLit _ _))) fun _ =>
      law.bind (spares_modify fun _ => rfl) fun _ => law.bind hexternal fun _ =>
        law.bind (spares_modify fun _ => rfl) fun _ => spares_modify fun _ => rfl

theorem spares_constrain (l : ℤ) : Spares (constrain l) := by
  have law := along_sameLimits
  have hexternal : Spares (externalConstrain l) :=
    law.bind (spares_modify fun _ => rfl) fun _ => law.bind (spares_internalize l) fun _ =>
      spares_modify fun _ => rfl
  exact law.bind (spares_looks (looks_requireValidState _)) fun _ =>
    law.bind (law.doIf (spares_looks (looks_requireValidLit _ _))) fun _ =>
      law.bind (spares_modify fun _ => rfl) fun _ => law.bind hexternal fun _ =>
        law.bind (spares_modify fun _ => rfl) fun _ => spares_modify fun _ => rfl

theorem spares_assume (l : ℤ) : Spares (assume l) := by
  have law := along_sameLimits
  exact law.bind (spares_looks (looks_requireValidState _)) fun _ =>
    law.bind (spares_looks (looks_requireValidLit _ _)) fun _ => law.bind (spares_modify fun _ => rfl) fun _ =>
      law.bind (spares_modify fun _ => rfl) fun _ => spares_internalize l

theorem spares_set (name : String) (value : ℤ) : Spares (set name value) := by
  have law := along_sameLimits
  refine law.bind (spares_looks (looks_requireValidState _)) fun _ => law.bind law.read fun _ =>
    law.bind (law.doIf (law.require law.refl)) fun _ => spares_modify fun c => ?_
  unfold setOpt
  split <;> rfl

theorem spares_traceProof (file : ℕ) (name : String) : Spares (traceProof file name) := by
  have law := along_sameLimits
  exact law.bind (spares_looks (looks_requireValidState _)) fun _ => law.bind law.read fun _ =>
    law.bind (law.require law.refl) fun _ => spares_modify fun _ => rfl

theorem spares_closeProofTrace : Spares closeProofTrace := by
  have law := along_sameLimits
  exact law.bind (spares_looks (looks_requireValidState _)) fun _ => law.bind law.read fun _ =>
    law.bind (law.require law.refl) fun _ => law.bind (law.require law.refl) fun _ =>
      spares_modify fun _ => rfl

/-- A search was made, and it used the limits up unless the solver was left in it. -/
def Searched (c c' : Cadical) : Prop :=
  c.searches.length < c'.searches.length ∧ (c'.limits = [] ∨ c'.state = .solving)

/-- Nothing happened to the limits, or there was a search; nothing at all in a solver left in one. -/
def Spends (c c' : Cadical) : Prop := Stands c c' ∧ (SameLimits c c' ∨ Searched c c')

theorem Spends.trans {a b c : Cadical} (h : Spends a b) (h' : Spends b c) : Spends a c := by
  refine ⟨along_stands.trans h.1 h'.1, ?_⟩
  rcases h.2 with h | ⟨hlt, hleft⟩
  · obtain ⟨hs, hl⟩ := Prod.mk.inj h
    rcases h'.2 with h' | ⟨hlt, hleft⟩
    · exact .inl (h'.trans h)
    · exact .inr ⟨hs ▸ hlt, hleft⟩
  · refine .inr ?_
    rcases hleft with hnil | hsolving
    · rcases h'.2 with hsame | ⟨hlt', hleft'⟩
      · obtain ⟨hs, hl⟩ := Prod.mk.inj hsame
        exact ⟨hs.symm ▸ hlt, .inl (hl.trans hnil)⟩
      · exact ⟨lt_trans hlt hlt', hleft'⟩
    · rw [h'.1 hsolving]
      exact ⟨hlt, .inr hsolving⟩

theorem along_spends : Along Spends (fun _ : RError => Spends) :=
  .of_preorder (fun _ => ⟨fun _ => rfl, .inl rfl⟩) Spends.trans

theorem spends_of_spares {α : Type} {m : CadicalM α} (hm : Spares m) (hs : Respects Stands m) :
    Respects Spends m :=
  respects_of_snd fun c => ⟨hs.snd c, .inl (hm.snd c)⟩

theorem looks_requireReadyState (fn : String) : Looks (requireReadyState fn) :=
  along_still.bind (looks_requireValidState _) fun _ => along_still.bind along_still.read fun _ =>
    looks_require _ _

theorem searched_callExternalSolve (pre : Bool) (ask : Oracle) {c c' : Cadical}
    (h : c'.searches = c.searches) : Searched c ((callExternalSolve pre ask).run c').2 := by
  have hlt : c.searches.length < (recordedSearch pre ask c').searches.length := by
    change c.searches.length < (c'.startSearch.searches ++ [_]).length
    rw [Handle.startSearch_searches, h, List.length_append, List.length_singleton]
    exact Nat.lt_succ_self _
  cases hcheck : searchCheck pre ask c' with
  | ok u =>
    rw [run_callExternalSolve hcheck]
    exact ⟨hlt, .inl rfl⟩
  | error e =>
    rw [run_callExternalSolve_failed hcheck]
    exact ⟨hlt, .inr startSearch_state⟩

theorem spends_solve (ask : Oracle) : Respects Spends (solve ask) := by
  refine respects_of_snd fun c => ⟨(stands_solve ask).snd c, ?_⟩
  rcases hready : (requireReadyState "solve").run c with ⟨r, c'⟩
  obtain rfl := (looks_requireReadyState "solve").of_run hready
  rw [solve, run_bind, hready]
  cases r with
  | error e => exact .inl rfl
  | ok u => exact .inr (searched_callExternalSolve false ask rfl)

theorem spends_simplify (ask : Oracle) : Respects Spends (simplify ask) := by
  refine respects_of_snd fun c => ⟨(stands_simplify ask).snd c, ?_⟩
  rcases hready : (requireReadyState "simplify").run c with ⟨r, c'⟩
  obtain rfl := (looks_requireReadyState "simplify").of_run hready
  rw [simplify, run_bind, hready]
  cases r with
  | error e => exact .inl rfl
  | ok u =>
    rw [andThen_ok, run_bind, run_modify, andThen_ok]
    exact .inr (searched_callExternalSolve true ask rfl)

end Cadical

namespace Handle

/-! ## What the entry points do to the limits -/

def SameLimits (h h' : Handle) : Prop := Cadical.SameLimits h.solver h'.solver

theorem along_sameLimits : Along SameLimits (fun _ : RError => SameLimits) :=
  along_view fun h : Handle => (h.solver.searches, h.solver.limits)

theorem spares_call {α : Type} {m : CadicalM α} (hm : Cadical.Spares m) : Respects SameLimits (call m) :=
  Moves.within hm (fun _ _ h => h) (fun _ _ _ h => h)

theorem spares_looks {α : Type} {m : HandleM α} (hm : Cadical.Looks m) : Respects SameLimits m := by
  apply respects_of_snd
  intro h
  rw [hm.snd h]
  rfl

theorem spares_modify {f : Handle → Handle} (hf : ∀ h, (f h).solver = h.solver) :
    Respects SameLimits (modify f : HandleM Unit) := by
  apply Moves.modify
  intro h
  rw [SameLimits, hf]
  rfl

theorem spares_zusatReserve (n : SEXP) : Respects SameLimits (zusatReserve n) := by
  have law := along_sameLimits
  have hvars : Respects SameLimits (call Cadical.vars) :=
    spares_call (Cadical.spares_looks Cadical.looks_vars)
  have hmore : ∀ k, Cadical.Spares (Cadical.declareMoreVariables k) := fun k =>
    Cadical.along_sameLimits.bind (Cadical.spares_looks (Cadical.looks_requireValidState _)) fun _ =>
      Cadical.along_sameLimits.bind (Cadical.spares_modify fun _ => rfl) fun _ =>
        Cadical.spares_modify fun _ => rfl
  exact law.bind (spares_looks (looks_ofExcept _)) fun _ => law.bind (law.require law.refl) fun _ =>
    law.bind hvars fun _ => law.bind (law.doIf (law.bind (spares_modify fun _ => rfl) fun _ =>
      spares_call (hmore _))) fun _ => hvars

/-- The call neither searches nor sets a limit. -/
def spare : EntryCall → Prop
  | .solve .. => False
  | .simplify _ => False
  | .limit .. => False
  | _ => True

theorem spares_entry {e : EntryCall} (he : spare e) : Respects SameLimits (entry e) := by
  have law := along_sameLimits
  have hread : ∀ {α : Type} (x : Except RError α), Respects SameLimits (ofExcept x : HandleM α) :=
    fun x => spares_looks (looks_ofExcept x)
  cases e with
  | addClause x =>
    apply law.bind _ fun _ => law.pure _
    exact law.bind (hread _) fun _ => law.bind (hread _) fun _ =>
      law.bind (spares_modify fun _ => rfl) fun _ =>
        law.bind (law.each fun l _ => spares_call (Cadical.spares_add l)) fun _ =>
          spares_call (Cadical.spares_add 0)
  | constrain x =>
    apply law.bind _ fun _ => law.pure _
    exact law.bind (hread _) fun _ => law.bind (hread _) fun _ =>
      law.bind (spares_modify fun _ => rfl) fun _ =>
        law.bind (law.each fun l _ => spares_call (Cadical.spares_constrain l)) fun _ =>
          law.bind (spares_call (Cadical.spares_constrain 0)) fun _ => spares_modify fun _ => rfl
  | reserve n => exact law.bind (spares_zusatReserve n) fun _ => law.pure _
  | setOption name value =>
    apply law.bind _ fun _ => law.pure _
    exact law.bind (hread _) fun _ => law.bind (hread _) fun _ => law.bind (law.require law.refl) fun _ =>
      law.bind (spares_call (Cadical.spares_set _ _)) fun _ =>
        spares_call (Cadical.spares_looks (Cadical.looks_get _))
  | fixed x root => exact law.bind (spares_looks (looks_zusatFixed x root)) fun _ => law.pure _
  | value x => exact law.bind (spares_looks (looks_zusatValue x)) fun _ => law.pure _
  | failed x => exact law.bind (spares_looks (looks_zusatFailed x)) fun _ => law.pure _
  | constraintFailed => exact law.bind (spares_looks looks_zusatConstraintFailed) fun _ => law.pure _
  | conclude => exact law.bind (spares_looks looks_zusatConclude) fun _ => law.pure _
  | traceProof path canOpen =>
    apply law.bind _ fun _ => law.pure _
    exact law.bind (hread _) fun _ => law.bind law.read fun _ => law.bind (law.require law.refl) fun _ =>
      law.bind (law.require law.refl) fun _ => law.bind (law.require law.refl) fun _ =>
        law.bind (spares_modify fun _ => rfl) fun _ =>
          law.bind (spares_call (Cadical.spares_traceProof _ _)) fun _ => spares_modify fun _ => rfl
  | closeProof =>
    apply law.bind _ fun _ => law.pure _
    exact law.bind law.read fun _ => law.bind (law.require law.refl) fun _ =>
      law.bind (law.doIf (spares_call Cadical.spares_closeProofTrace)) fun _ =>
        spares_modify fun _ => rfl
  | _ => exact he.elim

def Spends (h h' : Handle) : Prop := Cadical.Spends h.solver h'.solver

theorem along_spends : Along Spends (fun _ : RError => Spends) :=
  .of_preorder (fun h => Cadical.along_spends.refl h.solver) Cadical.Spends.trans

theorem spends_modify {f : Handle → Handle} (hf : ∀ h, (f h).solver = h.solver) :
    Respects Spends (modify f : HandleM Unit) := by
  apply Moves.modify
  intro h
  rw [Spends, hf]
  exact Cadical.along_spends.refl h.solver

theorem spends_looks {α : Type} {m : HandleM α} (hm : Cadical.Looks m) : Respects Spends m := by
  apply respects_of_snd
  intro h
  rw [hm.snd h]
  exact along_spends.refl h

theorem spends_call {α : Type} {m : CadicalM α} (hm : Respects Cadical.Spends m) :
    Respects Spends (call m) := Moves.within hm (fun _ _ h => h) (fun _ _ _ h => h)

theorem spends_search {m : CadicalM Answer} (hm : Respects Cadical.Spends m) (what : String) :
    Respects Spends (search what m) := by
  have law := along_spends
  have hterm : Respects Spends (call Cadical.setTerminate) :=
    spends_looks (looks_call (Cadical.looks_requireValidState _))
  exact law.bind (spends_modify fun _ => rfl) fun _ => law.bind hterm fun _ =>
    law.bind (spends_call hm) fun _ => law.bind (spends_modify fun _ => rfl) fun _ =>
      law.bind hterm fun _ => law.bind (spends_modify fun _ => rfl) fun _ =>
        law.bind (law.require law.refl) fun _ => law.bind (spends_modify fun _ => rfl) fun _ => law.pure _

/-- Every entry point but the one that sets limits. -/
theorem spends_entry {e : EntryCall} (he : ∀ name value, e ≠ .limit name value) :
    Respects Spends (entry e) := by
  have law := along_spends
  have hread : ∀ {α : Type} (x : Except RError α), Respects Spends (ofExcept x : HandleM α) :=
    fun x => spends_looks (looks_ofExcept x)
  have hinvalidate : Respects Spends (modify invalidate : HandleM Unit) := spends_modify fun _ => rfl
  have hassume : ∀ l, Respects Spends (call (Cadical.assume l)) := fun l =>
    spends_call (Cadical.spends_of_spares (Cadical.spares_assume l) (Cadical.stands_assume l))
  cases e with
  | solve x ask =>
    apply law.bind _ fun _ => law.pure _
    exact law.bind (hread _) fun _ => law.bind (hread _) fun _ => law.bind hinvalidate fun _ =>
      law.bind (law.each fun l _ => hassume l) fun _ =>
        spends_search (Cadical.spends_solve ask) _
  | simplify ask =>
    apply law.bind _ fun _ => law.pure _
    exact law.bind hinvalidate fun _ => spends_search (Cadical.spends_simplify ask) _
  | limit name value => exact absurd rfl (he name value)
  | _ => exact respects_of_snd fun h => ⟨(stands_entry _).snd h, .inl ((spares_entry (by trivial)).snd h)⟩

end Handle

namespace Session

def isLimit (c : Call) : Prop := ∃ name value, c = .limit name value

/-- A call other than `sat_limit` leaves the limits alone or has searched and left none. -/
theorem spends_step {c : Call} (hc : ¬isLimit c) (s : Session) :
    Cadical.Spends s.solver (step s c).2.solver := by
  refine (respects_exported Handle.along_spends c fun e he => Handle.spends_entry ?_).snd s
  rintro name value rfl
  cases c with
  | limit n v => exact hc ⟨n, v, rfl⟩
  | _ => exact he.elim

/-! ## `sat_limit` -/

theorem checkLimitValue_ok {nm : String} {v : RValue} {z : ℤ} (h : checkLimitValue nm v = .ok z) :
    -1 ≤ z ∧ z ≤ integerMax ∧ (nm = "preprocessing" ∨ nm = "localsearch" → 0 ≤ z) := by
  unfold checkLimitValue at h
  split at h
  · next x =>
    have hrounds : nm = "preprocessing" ∨ nm = "localsearch" →
        ["preprocessing", "localsearch"].contains nm = true := by
      rintro (rfl | rfl) <;> decide
    split_ifs at h with hna hround hfin hwhole hneg hmax
    · obtain rfl := Except.ok.inj h
      refine ⟨le_rfl, by decide, fun hnm => ?_⟩
      rw [hrounds hnm] at hround
      simp_all
    · obtain rfl := Except.ok.inj h
      refine ⟨le_rfl, by decide, fun hnm => ?_⟩
      rw [hrounds hnm] at hround
      simp_all
    · obtain rfl := Except.ok.inj h
      have hx := RNum.isWhole_iff (x := x) (by simpa using hfin) (by simpa using hwhole)
      rw [hx] at hneg hmax
      simp only [RNum.lt, RNum.gt, decide_eq_true_eq] at hneg hmax
      have h0 : 0 ≤ x.asInteger := by exact_mod_cast not_lt.mp hneg
      have hle : x.asInteger ≤ integerMax := by exact_mod_cast not_lt.mp hmax
      exact ⟨by omega, hle, fun _ => h0⟩
  · cases h

/-- `sat_limit` is refused, or CaDiCaL is told. -/
theorem satLimit_cases {s : Session} (hs : s.solver.state.valid = true ∨ s.solver.state = .solving)
    (name : List (Option String)) (v : RValue) :
    (∃ e, (satLimit name v).run s = (.error e, s)) ∨
      ∃ nm z, name = [some nm] ∧ nm ∈ satLimits ∧ checkLimitValue nm v = .ok z ∧
        s.solver.state.valid = true ∧ (satLimit name v).run s = (.ok (), s.withHandle (s.handle.withSolver
          { s.solver with limits := s.solver.limits ++ [(nm, z)] })) := by
  unfold satLimit
  rw [run_bind]
  split
  · next nm =>
    by_cases hnm : satLimits.contains nm = true
    · rw [if_pos hnm, run_ofExcept_ok, andThen_ok, run_bind]
      cases hz : checkLimitValue nm v with
      | error e => exact .inl ⟨e, rfl⟩
      | ok z =>
        obtain ⟨hlo, hhi, -⟩ := checkLimitValue_ok hz
        have hmem : nm ∈ satLimits := by simpa using hnm
        have hknown : nm ∈ ["terminate", "conflicts", "decisions", "preprocessing", "localsearch",
            "ticks"] := by
          simp only [satLimits, List.mem_cons, List.not_mem_nil, or_false] at hmem ⊢
          tauto
        have hint : Handle.asInt "limit value must be a single integer" (.int [z]) = .ok z := by
          rw [Handle.asInt, if_neg]
          intro hna
          rw [hna] at hlo
          exact absurd hlo (by decide)
        have htold : ∀ {r : Except RError Unit} {c : Cadical}, (Cadical.limit nm z).run s.handle.solver = (r, c) →
            (onHandle (Handle.zusatLimit (.str [some nm]) (.int [z]))).run s =
              (r, s.withHandle (s.handle.withSolver c)) := by
          intro r c hlimit
          apply run_onHandle
          rw [Handle.zusatLimit, run_bind, run_ofExcept_ok, andThen_ok, run_bind, hint, run_ofExcept_ok,
            andThen_ok]
          exact Handle.run_call hlimit
        rw [run_ofExcept_ok, andThen_ok]
        rcases hs with hv | hsolving
        · refine .inr ⟨nm, z, rfl, hmem, hz, hv, htold ?_⟩
          rw [Cadical.limit, run_bind, Cadical.run_requireValidState hv, andThen_ok, run_modify,
            if_pos hknown]
        · refine .inl ⟨Cadical.invalidState "limit", htold (c := s.handle.solver) ?_⟩
          rw [Cadical.limit, Cadical.run_validState_solving hsolving]
    · rw [if_neg hnm]
      exact .inl ⟨_, rfl⟩
  · exact .inl ⟨_, rfl⟩

/-! ## What has been granted -/

/-- The limits of each name set since the last search, after one more call. -/
def grantedAfter (s : Session) (g : String → Option ℤ) (c : Call) : String → Option ℤ :=
  if s.solver.searches.length < (step s c).2.solver.searches.length then fun _ => none
  else match c, (step s c).1 with
    | .limit [some nm] v, .ok _ => Function.update g nm (checkLimitValue nm v).toOption
    | _, _ => g

def grantedFrom (s : Session) (g : String → Option ℤ) : List Call → String → Option ℤ
  | [] => g
  | c :: cs => grantedFrom (step s c).2 (grantedAfter s g c) cs

/-- The last accepted `sat_limit` of each name since the last search of the run. -/
def granted (cs : List Call) : String → Option ℤ := grantedFrom new (fun _ => none) cs

end Session

/-- The limits that follow from what has been set: unbounded where nothing has, or where a negative number
or, for `terminate`, zero has. -/
def Budget.granted (g : String → Option ℤ) : Budget where
  terminate := max 0 ((g "terminate").getD 0)
  conflicts := (g "conflicts").getD (-1)
  decisions := (g "decisions").getD (-1)
  preprocessing := (g "preprocessing").getD 0
  localsearch := (g "localsearch").getD 0
  ticks := (g "ticks").getD (-1)

/-- Only numbers `check_limit_value` lets through have been set. -/
def WellGranted (g : String → Option ℤ) : Prop :=
  ∀ nm z, g nm = some z → -1 ≤ z ∧ (nm = "preprocessing" ∨ nm = "localsearch" → 0 ≤ z)

namespace Budget
variable {b : Budget} {z : ℤ}

theorem limitTerminate_eq : b.limitTerminate z = { b with terminate := max 0 z } := by
  unfold limitTerminate
  split_ifs with hkeep hreset
  · rw [max_eq_left hkeep.1, ← hkeep.2]
  · rw [max_eq_left hreset]
  · rw [max_eq_right (le_of_not_ge hreset)]

theorem limitConflicts_eq (hb : -1 ≤ b.conflicts) (hz : -1 ≤ z) :
    b.limitConflicts z = { b with conflicts := z } := by
  unfold limitConflicts
  split_ifs with hkeep hreset
  · rw [show z = b.conflicts by omega]
  · rw [show z = -1 by omega]
  · rfl

theorem limitDecisions_eq (hb : -1 ≤ b.decisions) (hz : -1 ≤ z) :
    b.limitDecisions z = { b with decisions := z } := by
  unfold limitDecisions
  split_ifs with hkeep hreset
  · rw [show z = b.decisions by omega]
  · rw [show z = -1 by omega]
  · rfl

theorem limitTicks_eq (hb : -1 ≤ b.ticks) (hz : -1 ≤ z) : b.limitTicks z = { b with ticks := z } := by
  unfold limitTicks
  split_ifs with hkeep hreset
  · rw [show z = b.ticks by omega]
  · rw [show z = -1 by omega]
  · rfl

/-- Telling CaDiCaL one more limit. -/
theorem limit_granted {g : String → Option ℤ} (hg : WellGranted g) {nm : String}
    (hnm : nm ∈ Session.satLimits) (hz : -1 ≤ z)
    (hrounds : nm = "preprocessing" ∨ nm = "localsearch" → 0 ≤ z) :
    (granted g).limit nm z = granted (Function.update g nm (some z)) := by
  have hcount : ∀ nm', -1 ≤ (g nm').getD (-1) := by
    intro nm'
    cases hy : g nm' with
    | none => exact le_rfl
    | some y => exact (hg nm' y hy).1
  simp only [Session.satLimits, List.mem_cons, List.not_mem_nil, or_false] at hnm
  rcases hnm with rfl | rfl | rfl | rfl | rfl | rfl
  · exact (limitConflicts_eq (hcount _) hz).trans (by simp [granted])
  · exact (limitDecisions_eq (hcount _) hz).trans (by simp [granted])
  · exact (if_neg (not_lt.mpr (hrounds (.inl rfl)))).trans (by simp [granted])
  · exact (if_neg (not_lt.mpr (hrounds (.inr rfl)))).trans (by simp [granted])
  · exact (limitTicks_eq (hcount _) hz).trans (by simp [granted])
  · exact limitTerminate_eq.trans (by simp [granted])

end Budget

/-! ## Whole runs -/

namespace Session

/-- The limits in force are those granted, unless the solver was left in a search. -/
structure Granted (s : Session) (g : String → Option ℤ) : Prop where
  settled : s.solver.Settled
  wellGranted : WellGranted g
  budget : s.solver.state.valid = true → s.solver.budget = .granted g

theorem granted_new : Granted new fun _ => none := by
  refine ⟨.inl rfl, fun nm z h => ?_, fun _ => rfl⟩
  cases h

theorem budget_of_same {c c' : Cadical} (h : Cadical.SameLimits c c') : c'.budget = c.budget := by
  rw [Cadical.budget, (Prod.mk.inj h).2, Cadical.budget]

theorem Granted.limit {s : Session} {g : String → Option ℤ} (hs : Granted s g)
    (name : List (Option String)) (v : RValue) :
    Granted (step s (.limit name v)).2 (grantedAfter s g (.limit name v)) := by
  have hkeep : ∀ {r : Except RError Unit} {s' : Session}, (satLimit name v).run s = (r, s') →
      step s (.limit name v) = (r.map fun _ => .unit, s') := fun h => run_unit h
  rcases satLimit_cases hs.settled.valid_or_solving name v with
    ⟨e, hrun⟩ | ⟨nm, z, rfl, hnm, hz, hv, hrun⟩
  · have hsame : grantedAfter s g (.limit name v) = g := by
      unfold grantedAfter
      rw [hkeep hrun, if_neg (lt_irrefl _)]
      split
      · next heq => cases heq
      · rfl
    rw [hsame, hkeep hrun]
    exact hs
  · obtain ⟨hlo, -, hrounds⟩ := checkLimitValue_ok hz
    have hset : grantedAfter s g (.limit [some nm] v) = Function.update g nm (some z) := by
      have hsearches : (step s (.limit [some nm] v)).2.solver.searches = s.solver.searches := by
        rw [hkeep hrun]
        rfl
      unfold grantedAfter
      rw [hsearches, if_neg (lt_irrefl _), hkeep hrun]
      simp only [Except.map, hz]
      rfl
    rw [hset, hkeep hrun]
    refine ⟨.inl hv, fun nm' z' h => ?_, fun _ => ?_⟩
    · by_cases heq : nm' = nm
      · subst heq
        rw [Function.update_self] at h
        obtain rfl := Option.some.inj h
        exact ⟨hlo, hrounds⟩
      · rw [Function.update_of_ne heq] at h
        exact hs.wellGranted nm' z' h
    · rw [← Budget.limit_granted hs.wellGranted hnm hlo hrounds, ← hs.budget hv]
      exact List.foldl_append ..

theorem Granted.step {s : Session} {g : String → Option ℤ} (hs : Granted s g) (c : Call) :
    Granted (step s c).2 (grantedAfter s g c) := by
  by_cases hc : isLimit c
  · obtain ⟨name, v, rfl⟩ := hc
    exact hs.limit name v
  · have hsettled := (step_change hs.settled c).settled
    obtain ⟨hstands, hspends⟩ := spends_step hc s
    rcases hspends with hsame | ⟨hlt, hleft⟩
    · have hkept : grantedAfter s g c = g := by
        unfold grantedAfter
        rw [(Prod.mk.inj hsame).1, if_neg (lt_irrefl _)]
        split
        · next nm v _ => exact absurd ⟨_, _, rfl⟩ hc
        · rfl
      rw [hkept]
      refine ⟨hsettled, hs.wellGranted, fun hv => (budget_of_same hsame).trans (hs.budget ?_)⟩
      refine hs.settled.valid_or_solving.resolve_right fun hsolving => ?_
      rw [hstands hsolving, hsolving] at hv
      cases hv
    · have hnone : grantedAfter s g c = fun _ => none := if_pos hlt
      rw [hnone]
      refine ⟨hsettled, granted_new.wellGranted, fun hv => ?_⟩
      rcases hleft with hnil | hsolving
      · rw [Cadical.budget, hnil]
        rfl
      · rw [hsolving] at hv
        cases hv

theorem Granted.run {s : Session} {g : String → Option ℤ} (hs : Granted s g) (cs : List Call) :
    Granted (run Session.step s cs) (grantedFrom s g cs) := by
  induction cs generalizing s g with
  | nil => exact hs
  | cons c cs ih => exact ih (hs.step c)

theorem granted_after (cs : List Call) : Granted (after cs) (granted cs) := granted_new.run cs

/-! ## What a search is told

Two oracles that answer alike on every solver with the given limits are the same to a call that starts its
searches with these limits. -/

/-- The oracles agree on solvers with these limits. -/
def AgreeAt (b : Budget) (ask ask' : Oracle) : Prop := ∀ c : Cadical, c.budget = b → ask c = ask' c

theorem startSearch_budget (c : Cadical) : c.startSearch.budget = c.budget := by
  rw [Cadical.startSearch, Cadical.updateMoltenLiterals]
  split <;> rfl

theorem run_callExternalSolve_congr {pre : Bool} {ask ask' : Oracle} {c : Cadical}
    (h : ask c.startSearch = ask' c.startSearch) :
    (Cadical.callExternalSolve pre ask).run c = (Cadical.callExternalSolve pre ask').run c := by
  have hrecorded : Cadical.recordedSearch pre ask c = Cadical.recordedSearch pre ask' c := by
    rw [Cadical.recordedSearch, h, Cadical.recordedSearch]
  have hcheck : Cadical.searchCheck pre ask c = Cadical.searchCheck pre ask' c := by
    rw [Cadical.searchCheck, hrecorded, h, Cadical.searchCheck]
  have hafter : Cadical.afterSearch pre ask c = Cadical.afterSearch pre ask' c := by
    unfold Cadical.afterSearch
    simp only [hrecorded, h]
  cases hres : Cadical.searchCheck pre ask' c with
  | ok u =>
    rw [Cadical.run_callExternalSolve (hcheck.trans hres), Cadical.run_callExternalSolve hres, h, hafter]
  | error e =>
    rw [Cadical.run_callExternalSolve_failed (hcheck.trans hres), Cadical.run_callExternalSolve_failed hres,
      hrecorded]

theorem run_solve_congr {ask ask' : Oracle} {c : Cadical} (h : AgreeAt c.budget ask ask') :
    (Cadical.solve ask).run c = (Cadical.solve ask').run c := by
  refine run_bind_congr fun u c' hready => ?_
  obtain rfl := (Cadical.looks_requireReadyState "solve").of_run hready
  exact run_callExternalSolve_congr (h _ (startSearch_budget c'))

theorem run_simplify_congr {ask ask' : Oracle} {c : Cadical}
    (h : AgreeAt c.limitRounds.budget ask ask') :
    (Cadical.simplify ask).run c = (Cadical.simplify ask').run c := by
  refine run_bind_congr fun u c' hready => ?_
  obtain rfl := (Cadical.looks_requireReadyState "simplify").of_run hready
  rw [run_bind, run_bind, run_modify, andThen_ok]
  exact run_callExternalSolve_congr (h _ (startSearch_budget c'.limitRounds))

theorem run_search_congr {what : String} {m m' : CadicalM Answer} {h : Handle}
    (hm : m.run h.solver = m'.run h.solver) :
    (Handle.search what m).run h = (Handle.search what m').run h := by
  refine run_bind_congr fun _ h₁ h₁' => run_bind_congr fun _ h₂ hterm => ?_
  obtain rfl := (Handle.looks_call (Cadical.looks_requireValidState _)).of_run hterm
  obtain rfl : h₂ = { h with interrupted := false } := (congrArg Prod.snd h₁').symm
  have hcall : (Handle.call m).run { h with interrupted := false } =
      (Handle.call m').run { h with interrupted := false } := by
    rw [Handle.call, Handle.call, run_within, run_within]
    simp only [hm]
  rw [run_bind, run_bind, hcall]

/-- Assuming literals leaves the limits alone. -/
theorem sameLimits_assuming {h h' : Handle} {p : List ℤ} {r : Except RError Unit}
    (hrun : (each (fun l => Handle.call (Cadical.assume l)) p).run h = (r, h')) :
    Cadical.SameLimits h.solver h'.solver := by
  have hmoves : Respects Handle.SameLimits (each (fun l => Handle.call (Cadical.assume l)) p) :=
    Handle.along_sameLimits.each fun l _ => Handle.spares_call (Cadical.spares_assume l)
  have hsnd := hmoves.snd h
  rw [hrun] at hsnd
  exact hsnd

theorem run_zusatSolve_congr {ask ask' : Oracle} {h : Handle} (hask : AgreeAt h.solver.budget ask ask')
    (x : SEXP) : (Handle.zusatSolve x ask).run h = (Handle.zusatSolve x ask').run h := by
  refine run_bind_congr fun p h₁ h₁' => run_bind_congr fun _ h₂ h₂' => run_bind_congr fun _ h₃ h₃' =>
    run_bind_congr fun _ h₄ h₄' => run_search_congr (run_solve_congr ?_)
  obtain rfl := (Handle.looks_ofExcept _).of_run h₁'
  obtain rfl := (Handle.looks_ofExcept _).of_run h₂'
  obtain rfl : h₃ = Handle.invalidate h₂ := (congrArg Prod.snd h₃').symm
  rw [budget_of_same (sameLimits_assuming h₄')]
  exact hask

theorem run_satSolve_congr {ask ask' : Oracle} {s : Session} (hask : AgreeAt s.solver.budget ask ask')
    (v : RValue) : (satSolve v ask).run s = (satSolve v ask').run s := by
  refine run_bind_congr fun p s₁ h₁ => run_bind_congr fun _ s₂ h₂ => ?_
  obtain rfl := (Handle.looks_ofExcept _).of_run h₁
  obtain rfl : s₂ = s₁ := by
    rw [run_refuseAux] at h₂
    exact (congrArg Prod.snd h₂).symm
  rw [run_bind, run_bind, onHandle, onHandle, run_within, run_within, run_zusatSolve_congr hask]

/-! ## Enumerations -/

theorem solve_spent {c c' : Cadical} {ask : Oracle} {a : Answer}
    (h : (Cadical.solve ask).run c = (.ok a, c')) : c'.limits = [] := by
  obtain ⟨u, c₁, -, h⟩ := run_bind_ok.mp h
  cases hcheck : Cadical.searchCheck false ask c₁ with
  | ok v =>
    rw [Cadical.run_callExternalSolve hcheck] at h
    cases h
    rfl
  | error e =>
    rw [Cadical.run_callExternalSolve_failed hcheck] at h
    cases h

theorem call_ok {α : Type} {m : CadicalM α} {h h' : Handle} {a : α}
    (hrun : (Handle.call m).run h = (.ok a, h')) : m.run h.solver = (.ok a, h'.solver) := by
  rw [Handle.call, run_within] at hrun
  rcases hm : m.run h.solver with ⟨r, c⟩
  rw [hm] at hrun
  cases hrun
  rfl

theorem search_spent {what : String} {ask : Oracle} {h h' : Handle} {r : SolveRes}
    (hrun : (Handle.search what (Cadical.solve ask)).run h = (.ok r, h')) : h'.solver.limits = [] := by
  obtain ⟨_, h₁, -, hrun⟩ := run_bind_ok.mp hrun
  obtain ⟨_, h₂, -, hrun⟩ := run_bind_ok.mp hrun
  obtain ⟨a, h₃, hsolve, hrun⟩ := run_bind_ok.mp hrun
  obtain ⟨_, h₄, hmod, hrun⟩ := run_bind_ok.mp hrun
  obtain ⟨_, h₅, hterm, hrun⟩ := run_bind_ok.mp hrun
  obtain ⟨_, h₆, hpending, hrun⟩ := run_bind_ok.mp hrun
  obtain ⟨_, h₇, hgo, hend⟩ := run_bind_ok.mp hrun
  have hspent := solve_spent (call_ok hsolve)
  obtain rfl : h₅ = h₄ := (Handle.looks_call (Cadical.looks_requireValidState _)).of_run hterm
  obtain rfl : h₇ = h₆ := (Cadical.looks_require _ _).of_run hgo
  -- none of the flags set in between belongs to the solver
  have e₅ : h₅.solver = h₃.solver := (congrArg (fun r => Handle.solver r.2) hmod).symm
  have e₇ : h₇.solver = h₅.solver := (congrArg (fun r => Handle.solver r.2) hpending).symm
  have e' : h'.solver = h₇.solver := (congrArg (fun r => Handle.solver r.2) hend).symm
  rw [e', e₇, e₅]
  exact hspent

/-- After a solve that returned nothing is left of the limits. -/
theorem satSolve_spent {s s' : Session} {v : RValue} {ask : Oracle} {sol : Solution}
    (h : (satSolve v ask).run s = (.ok sol, s')) : s'.solver.limits = [] := by
  obtain ⟨p, s₁, -, h⟩ := run_bind_ok.mp h
  obtain ⟨_, s₂, -, h⟩ := run_bind_ok.mp h
  obtain ⟨r, s₃, hsolve, h⟩ := run_bind_ok.mp h
  obtain rfl := (looks_newSolution r).of_run h
  rw [onHandle, run_within] at hsolve
  rcases hrun : (Handle.zusatSolve (.int p) ask).run s₂.handle with ⟨x, h'⟩
  rw [hrun] at hsolve
  cases hsolve
  obtain ⟨_, h₁, -, hrun⟩ := run_bind_ok.mp hrun
  obtain ⟨_, h₂, -, hrun⟩ := run_bind_ok.mp hrun
  obtain ⟨_, h₃, -, hrun⟩ := run_bind_ok.mp hrun
  obtain ⟨_, h₄, -, hrun⟩ := run_bind_ok.mp hrun
  exact search_spent hrun

theorem sameLimits_addClauses {s s' : Session} {cls : List (List ℤ)} {r : Except RError Unit}
    (h : (addClauses cls).run s = (r, s')) : Cadical.SameLimits s.solver s'.solver := by
  have hmoves := (moving_addClauses Handle.along_sameLimits
    (fun x => Handle.spares_entry (e := .addClause x) trivial) cls).snd s
  rw [h] at hmoves
  exact hmoves

theorem sameLimits_arm {s s' : Session} {con : Option (List ℤ)} {r : Except RError Unit}
    (h : (doIf con.isSome (onHandle (Handle.zusatConstrain (.int (con.getD []))))).run s = (r, s')) :
    Cadical.SameLimits s.solver s'.solver := by
  have hmoves : Moving Handle.SameLimits
      (doIf con.isSome (onHandle (Handle.zusatConstrain (.int (con.getD []))))) :=
    (along_through Handle.along_sameLimits).doIf (moving_entry
      (e := .constrain (.int (con.getD []))) rfl (Handle.spares_entry trivial))
  have hsnd := hmoves.snd s
  rw [h] at hsnd
  exact hsnd

theorem budget_of_nil {c : Cadical} (h : c.limits = []) : c.budget = .unbounded := by
  rw [Cadical.budget, h]
  rfl

section Round
variable {vars : Option (List ℤ)} {assumptions : List ℤ} {constraint : Option (List ℤ)}

/-- A round sees the limits in force; what follows it sees none. -/
theorem run_round_congr {ask ask' : Oracle} {s : Session} (hask : AgreeAt s.solver.budget ask ask')
    {again again' : Enumeration → SessionM Enumeration}
    (hagain : ∀ t st, t.solver.limits = [] → (again st).run t = (again' st).run t) (st : Enumeration) :
    (satSolutionsRound vars assumptions constraint ask again st).run s =
      (satSolutionsRound vars assumptions constraint ask' again' st).run s := by
  refine run_bind_congr fun _ s₁ harm => ?_
  have hsame := budget_of_same (sameLimits_arm harm)
  rw [run_bind, run_bind, run_satSolve_congr (hsame ▸ hask) (.ints assumptions), ← run_bind, ← run_bind]
  refine run_bind_congr fun sol s₂ hsol => ?_
  have hspent := satSolve_spent hsol
  split
  · rfl
  · refine run_bind_congr fun n s₃ hn => run_bind_congr fun value s₄ hvalue => ?_
    obtain rfl := looks_satNVars.of_run hn
    obtain rfl := (looks_satValue _).of_run hvalue
    split
    · rfl
    · exact run_bind_congr fun _ s₅ hadd => hagain s₅ _ ((Prod.mk.inj (sameLimits_addClauses hadd)).2.trans hspent)

theorem run_loop_congr {limit : RNum} {asks asks' : List Oracle}
    (hasks : List.Forall₂ (AgreeAt .unbounded) asks asks') {s : Session} (hs : s.solver.limits = [])
    (st : Enumeration) : (satSolutionsLoop limit vars assumptions constraint asks st).run s =
      (satSolutionsLoop limit vars assumptions constraint asks' st).run s := by
  induction hasks generalizing s st with
  | nil => rfl
  | cons hask _ ih =>
    rw [satSolutionsLoop, satSolutionsLoop]
    split
    · exact run_round_congr (budget_of_nil hs ▸ hask) (fun t st ht => ih ht st) st
    · rfl

end Round

/-! ## Once a search was left

No search starts any more, and the oracles do not matter. -/

section Left
variable {s : Session} {ask ask' : Oracle}

theorem run_satSolve_left (hs : s.solver.state = .solving) (v : RValue) :
    (satSolve v ask).run s = (satSolve v ask').run s := by
  rcases satSolve_cases_solving hs v with ⟨e, -, hrun⟩ | ⟨p, fn, h', -, -, hrun⟩ <;>
    rw [hrun ask, hrun ask']

theorem run_round_left {r : Request} (hs : s.solver.state = .solving) (hr : r.Checked s.aux)
    (again again' : Enumeration → SessionM Enumeration) (st : Enumeration) :
    (satSolutionsRound r.vars r.assumptions r.constraint ask again st).run s =
      (satSolutionsRound r.vars r.assumptions r.constraint ask' again' st).run s := by
  obtain ⟨e, s', hround⟩ := round_solving hs hr
  rw [hround, hround]

end Left

/-! ## The three calls that search -/

theorem limitRounds_budget (c : Cadical) :
    c.limitRounds.budget = { c.budget with preprocessing := 3 } := by
  unfold Cadical.budget Cadical.limitRounds
  rw [List.foldl_append]
  rfl

/-- The oracles agree wherever the call that searches may ask them. -/
def AgreeFor (s : Session) (b : Budget) (ask ask' : Oracle) : Prop :=
  s.solver.state = .solving ∨ AgreeAt b ask ask'

theorem step_solve_congr {s : Session} {ask ask' : Oracle} (hask : AgreeFor s s.solver.budget ask ask')
    (v : RValue) : step s (.solve v ask) = step s (.solve v ask') := by
  have hrun : (satSolve v ask).run s = (satSolve v ask').run s :=
    hask.elim (fun hs => run_satSolve_left hs v) fun hask => run_satSolve_congr hask v
  rw [step, step, exported, exported, run_bind, run_bind, hrun]

theorem step_simplify_congr {s : Session} {ask ask' : Oracle}
    (hask : AgreeFor s { s.solver.budget with preprocessing := 3 } ask ask') :
    step s (.simplify ask) = step s (.simplify ask') := by
  have hrun : (Handle.zusatSimplify ask).run s.handle = (Handle.zusatSimplify ask').run s.handle := by
    rcases hask with hs | hask
    · rw [Handle.run_zusatSimplify_solving hs, Handle.run_zusatSimplify_solving hs]
    refine run_bind_congr fun _ h hinv => run_search_congr (run_simplify_congr ?_)
    obtain rfl : h = Handle.invalidate s.handle := (congrArg Prod.snd hinv).symm
    rw [limitRounds_budget]
    exact hask
  rw [step, step, exported, exported, run_bind, run_bind, satSimplify, satSimplify, onHandle, onHandle,
    run_within, run_within, hrun]

theorem step_solutions_congr {s : Session} {ask ask' : Oracle} {asks asks' : List Oracle}
    (hask : AgreeFor s s.solver.budget ask ask') (hasks : List.Forall₂ (AgreeAt .unbounded) asks asks')
    (limit vars as con : RValue) : step s (.solutions limit vars as con (ask :: asks)) =
      step s (.solutions limit vars as con (ask' :: asks')) := by
  have henum : (satSolutions limit vars as con (ask :: asks)).run s =
      (satSolutions limit vars as con (ask' :: asks')).run s := by
    rw [run_satSolutions, run_satSolutions]
    cases hhands : solutionsHands s limit vars as con with
    | error e => rw [run_bind, run_bind, run_ofExcept_error, andThen_error, andThen_error]
    | ok r =>
      obtain ⟨hchecked, -, -⟩ := solutionsHands_ok hhands
      rw [run_bind, run_bind, run_ofExcept_ok, andThen_ok, andThen_ok, enumerate, enumerate, run_bind, run_bind,
        satSolutionsLoop, satSolutionsLoop]
      split
      · rcases hask with hs | hask
        · rw [run_round_left hs hchecked]
        · rw [run_round_congr hask fun t st ht => run_loop_congr hasks ht st]
      · rfl
  rw [step, step, exported, exported, run_bind, run_bind, henum]

/-- The searches of a call see the limits granted since the last search, once: `sat_simplify` with three
rounds of preprocessing, and an enumeration in its first search only. -/
theorem limits_last_one_search (cs : List Call) :
    (∀ v ask ask', AgreeAt (.granted (granted cs)) ask ask' →
      step (after cs) (.solve v ask) = step (after cs) (.solve v ask')) ∧
    (∀ ask ask', AgreeAt { Budget.granted (granted cs) with preprocessing := 3 } ask ask' →
      step (after cs) (.simplify ask) = step (after cs) (.simplify ask')) ∧
    ∀ limit vars as con ask ask' asks asks', AgreeAt (.granted (granted cs)) ask ask' →
      List.Forall₂ (AgreeAt .unbounded) asks asks' →
      step (after cs) (.solutions limit vars as con (ask :: asks)) =
        step (after cs) (.solutions limit vars as con (ask' :: asks')) := by
  have hs := granted_after cs
  generalize after cs = s at hs ⊢
  rcases hs.settled.valid_or_solving with hv | hleft
  · rw [← hs.budget hv]
    exact ⟨fun v ask ask' hask => step_solve_congr (.inr hask) v,
      fun ask ask' hask => step_simplify_congr (.inr hask),
      fun limit vars as con ask ask' asks asks' hask hasks =>
        step_solutions_congr (.inr hask) hasks limit vars as con⟩
  · exact ⟨fun v ask ask' _ => step_solve_congr (.inl hleft) v,
      fun ask ask' _ => step_simplify_congr (.inl hleft),
      fun limit vars as con ask ask' asks asks' _ hasks =>
        step_solutions_congr (.inl hleft) hasks limit vars as con⟩

/-- A search that gives up, always or only under a limit of one conflict. -/
def givesUp (always : Bool) : Oracle := fun c =>
  ⟨if always || c.budget.conflicts = 1 then .unknown else .sat, false, fun _ => true, fun _ => false, false, 0,
    .unsat⟩

/-- Under the limit the two are the same search, without it they are not. -/
theorem limits_last_one_search_conflicts :
    (givesUp true Cadical.init).res ≠ (givesUp false Cadical.init).res ∧
      step (after [.limit [some "conflicts"] (.ints [1])]) (.solve (.ints []) (givesUp true)) =
        step (after [.limit [some "conflicts"] (.ints [1])]) (.solve (.ints []) (givesUp false)) := by
  refine ⟨by decide, (limits_last_one_search _).1 (.ints []) _ _ fun c hc => ?_⟩
  have hone : c.budget.conflicts = 1 := by
    rw [hc]
    rfl
  simp [givesUp, hone]

end Session
end Zusat
