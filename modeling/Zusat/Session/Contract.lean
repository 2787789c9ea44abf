import Zusat.Handle.Errors
import Zusat.Handle.Flags
import Zusat.Session.Solutions

/-! # When a call can run into one of CaDiCaL's contracts

The package's own checks, and flags that tell the truth, keep every call inside CaDiCaL's contracts with
respect to its state, except that a search is not refused while a clause is half added and that nothing is
refused once a failed check has left CaDiCaL in a search. With respect to literals they do not know of
`factorcheck` nor of extension variables; `admissible` says what has to hold instead. -/

namespace Zusat
open Foundations Foundations.Prog
set_option autoImplicit false

namespace Session
open Handle (Truthful)

theorem truthful_entrywise : Entrywise (fun h h' => Truthful h → Truthful h')
    (fun _ h h' => Truthful h → Truthful h') where
  law := .of_preorder (fun _ => id) (fun h h' => h' ∘ h)
  stays := fun _ _ => id
  entry := fun e => respects_of_snd fun _ ht => ht.step e

theorem truthful_setOption {s : Session} (ht : Truthful s.handle) (name : List (Option String))
    (value : RValue) : Truthful ((satSetOption name value).run s).2.handle :=
  Respects.snd (truthful_entrywise.satSetOption name value) s ht

theorem truthful_step {s : Session} (ht : Truthful s.handle) (c : Call) :
    Truthful (step s c).2.handle := by
  have htrace := respects_satTraceProof truthful_entrywise.through
    (fun nm _ v => truthful_entrywise.satSetOption [some nm] v)
    (fun path canOpen => Entrywise.follows_onHandle
      (truthful_entrywise.entry (.traceProof path canOpen)).of_bind_pure)
  exact Respects.snd (truthful_entrywise.exported c htrace) s ht

/-! ## Calls the flags decide -/

section Flags
variable {s : Session}

end Flags

/-! ## Calls that hand over literals -/

/-- The first of the literals that CaDiCaL does not take, if there is one, breaks no contract. -/
def Meets (takes legal : ℤ → Bool) (lits : List ℤ) : Prop :=
  ∀ q l r, lits = q ++ l :: r → (∀ x ∈ q, takes x = true) → takes l = false → legal l = true

theorem StopsAt.legal {c : Cadical} {cls done : List (List ℤ)} {q : List ℤ} {l : ℤ}
    (h : StopsAt c cls done q l) (hm : Meets c.takes c.addable cls.flatten) : c.addable l = true := by
  obtain ⟨r, rest, rfl⟩ := h.split
  refine hm (done.flatten ++ q) l (r ++ rest.flatten) (by simp) (fun x hx => ?_) h.stop
  rcases List.mem_append.mp hx with hx | hx
  · obtain ⟨cl, hcl, hx⟩ := List.mem_flatten.mp hx
    exact h.done cl hcl x hx
  · exact h.before x hx

section Literals
variable {s : Session}

/-- The last of the literals and zeros ends a clause. -/
def Terminated (ls : List ℤ) : Prop := ∀ l, ls.getLast? = some l → l = 0

theorem Terminated.append {xs ys : List ℤ} (hy : Terminated ys) (hx : ys = [] → Terminated xs) :
    Terminated (xs ++ ys) := by
  intro l hl
  rw [List.getLast?_append] at hl
  cases hlast : ys.getLast? with
  | some y =>
    rw [hlast, Option.some_or] at hl
    exact hy l (hlast.trans hl)
  | none =>
    rw [hlast, Option.none_or] at hl
    exact hx (List.getLast?_eq_none_iff.mp hlast) l hl

theorem Terminated.right {xs ys : List ℤ} (h : Terminated (xs ++ ys)) : Terminated ys := by
  intro l hl
  refine h l ?_
  rw [List.getLast?_append, hl, Option.some_or]

theorem terminated_units (ls : List ℤ) : Terminated (ls.flatMap fun l => [l, 0]) := by
  induction ls with
  | nil => exact fun l hl => nomatch hl
  | cons x ls ih =>
    rw [List.flatMap_cons]
    refine ih.append fun _ l hl => ?_
    simpa using hl.symm

/-- What the second solver is given ends a clause when the constraint and what was saved do. -/
theorem terminated_handedToChecker {c : Cadical} (h : Terminated (c.constraint ++ c.original)) :
    Terminated c.handedToChecker := by
  rw [Cadical.handedToChecker]
  refine h.right.append fun hnone => ?_
  rw [hnone, List.append_nil] at h
  split
  · exact h.append fun _ => terminated_units _
  · rw [List.append_nil]
    exact terminated_units _

/-- A refutation is checked with no clause begun: the options ask for no check, nothing was assumed or
constrained, or what the second solver is given ends a clause. -/
def Checkable (c : Cadical) (a : Answer) : Prop :=
  a.res = .unsat → c.opts "check" ≠ 0 → c.opts "checkfailed" ≠ 0 →
    (c.assumptions ≠ [] ∨ c.constraint ≠ []) → Terminated c.handedToChecker

/-- A search that introduces no extension variable leaves the others as they were. -/
theorem afterSearch_ervars {c : Cadical} {pre : Bool} {ask : Oracle}
    (hext : c.extensionOf (ask c.startSearch) = 0) :
    (Cadical.afterSearch pre ask c).ervars = c.ervars := by
  have hstart : c.startSearch.ervars = c.ervars ∧ c.startSearch.opts = c.opts := by
    rw [Cadical.startSearch, Cadical.updateMoltenLiterals]
    split <;> exact ⟨rfl, rfl⟩
  funext v
  change (c.startSearch.ervars v || (decide (c.startSearch.maxVar < v) &&
    decide (v ≤ c.startSearch.maxVar + c.startSearch.extensionOf (ask c.startSearch)))) = _
  rw [Cadical.extensionOf, hstart.2, ← Cadical.extensionOf, hext, hstart.1, Nat.add_zero]
  by_cases hv : c.startSearch.maxVar < v
  · rw [decide_eq_false (by omega : ¬v ≤ c.startSearch.maxVar), Bool.and_false, Bool.or_false]
  · rw [decide_eq_false hv, Bool.false_and, Bool.or_false]

theorem assuming_checks (c : Cadical) (p : List ℤ) :
    (assuming c p).ervars = c.ervars ∧ (assuming c p).opts = c.opts := by
  cases p with
  | nil => exact ⟨rfl, rfl⟩
  | cons l p => rw [assuming, Cadical.foldl_pushAssumption]; exact ⟨rfl, rfl⟩

theorem asked_ervars {t : Session} {r : Request} {ask : Oracle}
    (hext : t.solver.extensionOf (roundAnswer t r ask) = 0) :
    (asked t r ask).solver.ervars = t.solver.ervars := by
  have harmed := sameChecks_armed t r.constraint
  have hassumed := assuming_checks (armed t r.constraint).solver r.assumptions
  have hext' : (assuming (armed t r.constraint).solver r.assumptions).extensionOf
      (roundAnswer t r ask) = 0 := by
    rw [Cadical.extensionOf, hassumed.2, harmed.opts, ← Cadical.extensionOf, hext]
  exact (afterSearch_ervars hext').trans (hassumed.1.trans harmed.ervars)

/-- What a search may answer: a model only when there are no extension variables to read with it. -/
def Readable (c : Cadical) (a : Answer) : Prop :=
  a.res = .sat → (∀ v, c.ervars v = false) ∧ c.extensionOf a = 0

end Literals

/-! ## Enumerations -/

/-- An enumeration searches under assumptions or under a constraint. -/
def SearchesUnder (s : Session) (r : Request) : Prop :=
  r.assumptions ≠ [] ∨ r.constraint ≠ none ∨ s.solver.transitionToSteadyState.assumptions ≠ [] ∨
    s.solver.transitionToSteadyState.constraint ≠ []

/-- What an enumeration needs: literals CaDiCaL lets pass, no clause begun, also among those saved for
the check of a refutation, and for every model a search may find, no extension variable to read with it
and no undeclared variable to block it with. -/
structure Enumerable (s : Session) (r : Request) (asks : List Oracle) : Prop where
  usable : ∀ l ∈ r.constraint.getD [] ++ r.assumptions, s.solver.usable l = true
  ready : r.constraint = none → r.assumptions = [] → s.solver.state ≠ .adding
  checkable : s.solver.opts "check" ≠ 0 → s.solver.opts "checkfailed" ≠ 0 →
    (∃ ask ∈ asks, ∃ c, (ask c).res = .unsat) → SearchesUnder s r → Terminated s.solver.original ∧
      (r.constraint = none → Terminated (s.solver.transitionToSteadyState.constraint ++ s.solver.original))
  readable : ∀ ask ∈ asks, ∀ c, Readable s.solver (ask c)
  declared : s.solver.needsDeclared = true → (∃ ask ∈ asks, ∃ c, (ask c).res = .sat) →
    ∀ vs, r.vars = some vs → ∀ v ∈ vs, v.natAbs ≤ r.known s.solver.maxVar

/-- What the rounds of an enumeration keep of the session it started from. -/
structure Continues (s t : Session) : Prop where
  aux : t.aux = s.aux
  valid : t.solver.state.valid = true
  adding : t.solver.state = .adding → s.solver.state = .adding
  opts : ∀ n, t.solver.opts n = s.solver.opts n
  ervars : t.solver.ervars = s.solver.ervars
  maxVar : s.solver.maxVar ≤ t.solver.maxVar
  original : t.solver.original = s.solver.original ∨ t.solver.original.getLast? = some 0
  inForce : (t.solver.transitionToSteadyState.assumptions = s.solver.transitionToSteadyState.assumptions ∧
      t.solver.transitionToSteadyState.constraint = s.solver.transitionToSteadyState.constraint) ∨
    (t.solver.transitionToSteadyState.assumptions = [] ∧ t.solver.transitionToSteadyState.constraint = [])

section Enumerations
variable {s t : Session} {r : Request} {ask : Oracle} {asks : List Oracle}

theorem extensionOf_congr {c c' : Cadical} (h : ∀ n, c'.opts n = c.opts n) (a : Answer) :
    c'.extensionOf a = c.extensionOf a := by
  rw [Cadical.extensionOf, Cadical.extensionOf, h]

theorem known_mono {m n : ℕ} (h : m ≤ n) (r : Request) : r.known m ≤ r.known n :=
  max_le_max h le_rfl

theorem searchedFrom_saved (t : Session) (r : Request) :
    (searchedFrom t r).opts = t.solver.opts ∧ (searchedFrom t r).original = t.solver.original := by
  have harmed : (armed t r.constraint).solver.original = t.solver.original := by
    cases r.constraint <;> rfl
  have hassumed : ∀ (c : Cadical) (p : List ℤ), (assuming c p).original = c.original := by
    intro c p
    cases p with
    | nil => rfl
    | cons l p =>
      rw [assuming, Cadical.foldl_pushAssumption]
      rfl
  refine ⟨(startSearch_opts _).1.trans ((assuming_opts _ _).trans (armed_opts t r.constraint)), ?_⟩
  rw [searchedFrom, Cadical.startSearch, Cadical.updateMoltenLiterals]
  split <;> exact (hassumed _ _).trans harmed

/-- What a round hands to the second solver ends a clause. -/
theorem Continues.checkable (h : Continues s t) (he : Enumerable s r asks) (hask : ask ∈ asks) :
    Checkable (Cadical.recordedSearch false ask (assuming (armed t r.constraint).solver r.assumptions))
      (roundAnswer t r ask) := by
  intro hunsat hcheck hfailed hunder
  change (searchedFrom t r).opts "check" ≠ 0 at hcheck
  change (searchedFrom t r).opts "checkfailed" ≠ 0 at hfailed
  change (searchedFrom t r).assumptions ≠ [] ∨ (searchedFrom t r).constraint ≠ [] at hunder
  obtain ⟨hopts, horiginal⟩ := searchedFrom_saved t r
  obtain ⟨hass, hcons⟩ := searchedFrom_inForce t r
  rw [hopts, h.opts] at hcheck hfailed
  have hsearches : SearchesUnder s r := by
    by_contra hnot
    rw [SearchesUnder, not_or, not_or, not_or, not_not, not_not, not_not, not_not] at hnot
    obtain ⟨hr, hcon, hs⟩ := hnot
    have ht : t.solver.transitionToSteadyState.assumptions = [] ∧
        t.solver.transitionToSteadyState.constraint = [] := by
      rcases h.inForce with hsame | hnone
      · exact ⟨hsame.1.trans hs.1, hsame.2.trans hs.2⟩
      · exact hnone
    rw [hass, hcons, hr, hcon, ht.1] at hunder
    exact hunder.elim (fun hne => hne rfl) fun hne => hne ht.2
  obtain ⟨hsaved, hwhole⟩ := he.checkable hcheck hfailed ⟨ask, hask, _, hunsat⟩ hsearches
  refine terminated_handedToChecker ?_
  change Terminated ((searchedFrom t r).constraint ++ (searchedFrom t r).original)
  rw [hcons, horiginal]
  have hnow : Terminated t.solver.original := by
    rcases h.original with hsame | hzero
    · rw [hsame]
      exact hsaved
    · exact fun l hl => (Option.some.inj (hzero.symm.trans hl)).symm
  cases hcon : r.constraint with
  | some p =>
    refine hnow.append fun _ l hl => ?_
    change ((if _ then [] else _) ++ (p ++ [0])).getLast? = some l at hl
    rw [← List.append_assoc, List.getLast?_concat] at hl
    exact (Option.some.inj hl).symm
  | none =>
    change Terminated (t.solver.transitionToSteadyState.constraint ++ _)
    refine hnow.append fun hnil => ?_
    rcases h.inForce with hsame | hnone
    · have hs := hwhole hcon
      rw [hsame.2]
      rcases h.original with horig | hzero
      · rwa [← horig, hnil, List.append_nil] at hs
      · rw [hnil] at hzero
        cases hzero
    · rw [hnone.2]
      exact fun l hl => nomatch hl

/-- A search that finds a model continues the session. -/
theorem Continues.asked (h : Continues s t) (hr : r.Checked s.aux) (he : Enumerable s r asks)
    (hask : ask ∈ asks) (hsat : (roundAnswer t r ask).res = .sat) :
    Continues s (asked t r ask) ∧ r.known s.solver.maxVar ≤ (asked t r ask).solver.maxVar := by
  have hchange := change_askedAny (.inl h.valid) hr.constraint ask
  have hended : (Session.asked t r ask).solver.state.ended = true := by
    change (roundAnswer t r ask).res.state.ended = true
    rw [hsat]
    rfl
  have hext : t.solver.extensionOf (roundAnswer t r ask) = 0 := by
    rw [extensionOf_congr h.opts]
    exact (he.readable ask hask _ hsat).2
  have hstate : (Session.asked t r ask).solver.state ≠ .adding := by
    change (roundAnswer t r ask).res.state ≠ .adding
    rw [hsat]
    decide
  constructor
  · exact
      { aux := (asked_aux t r ask).trans h.aux
        valid := asked_valid t r ask
        adding := fun hadd => absurd hadd hstate
        opts := fun n => (hchange.opts n not_false).trans (h.opts n)
        ervars := (asked_ervars hext).trans h.ervars
        maxVar := le_trans h.maxVar hchange.maxVar
        original := by
          change (searchedFrom t r).original = _ ∨ (searchedFrom t r).original.getLast? = _
          rw [(searchedFrom_saved t r).2]
          exact h.original
        inForce := .inr ⟨if_pos hended, if_pos hended⟩ }
  · calc r.known s.solver.maxVar
        ≤ r.known t.solver.maxVar := known_mono h.maxVar r
      _ = (searchedFrom t r).maxVar := (searchedFrom_maxVar t r).symm
      _ ≤ (Session.asked t r ask).solver.maxVar := Nat.le_add_right ..

theorem Continues.withClause (h : Continues s t) (cl : List ℤ) :
    Continues s (withClause t cl) where
  aux := h.aux
  valid := rfl
  adding := fun hadd => nomatch hadd
  opts := h.opts
  ervars := h.ervars
  maxVar := le_trans h.maxVar (le_max_left ..)
  original := by
    change t.solver.saved (cl ++ [0]) = _ ∨ (t.solver.saved (cl ++ [0])).getLast? = _
    rw [Cadical.saved]
    split
    · exact .inr (by rw [← List.append_assoc, List.getLast?_concat])
    · exact h.original
  inForce := h.inForce

theorem Enumerable.interrupted (he : Enumerable s r asks) :
    Enumerable s r (asks ++ [interruptedSearch]) where
  usable := he.usable
  ready := he.ready
  checkable := by
    rintro hcheck hfailed ⟨ask, hask, c, hunsat⟩
    rcases List.mem_append.mp hask with hask | hask
    · exact he.checkable hcheck hfailed ⟨ask, hask, c, hunsat⟩
    · rw [List.mem_singleton.mp hask] at hunsat
      cases hunsat
  readable := by
    intro ask hask c hsat
    rcases List.mem_append.mp hask with hask | hask
    · exact he.readable ask hask c hsat
    · rw [List.mem_singleton.mp hask] at hsat
      cases hsat
  declared := by
    rintro hneeds ⟨ask, hask, c, hsat⟩
    rcases List.mem_append.mp hask with hask | hask
    · exact he.declared hneeds ⟨ask, hask, c, hsat⟩
    · rw [List.mem_singleton.mp hask] at hsat
      cases hsat

end Enumerations

/-! ## Whole runs -/

end Session
end Zusat
