import Mathlib.Data.Rat.Floor
import Zusat.Session.Solutions

/-! # What an enumeration reports of itself

`Rounds` is the run of a loop that returned, one entry for each search it made. Nothing is assumed of
the answers here: the count, the status, `complete` and the rows are read off any sequence of them. A
limit that is not whole is compared as it stands, so it can be passed by a fraction. -/

namespace Zusat
open Foundations Foundations.Prog
set_option autoImplicit false

namespace Session

/-! ## The rounds of a loop that returned -/

/-- The loop started in `t` with `st` made these searches, each from the session it found, and returned. -/
inductive Rounds (r : Request) : List Oracle → Session → Enumeration → List (Session × Oracle) →
    Enumeration → Session → Prop
  | limit {asks : List Oracle} {t : Session} {st : Enumeration}
      (hgt : r.limit.gt st.found.length = false) : Rounds r asks t st [] st t
  | missed {ask : Oracle} {asks : List Oracle} {t : Session} {st : Enumeration}
      (hgt : r.limit.gt st.found.length = true) (hres : (roundAnswer t r ask).res ≠ .sat) :
      Rounds r (ask :: asks) t st [(t, ask)] (st.ending (roundAnswer t r ask).res) (asked t r ask)
  | single {ask : Oracle} {asks : List Oracle} {t : Session} {st : Enumeration}
      (hgt : r.limit.gt st.found.length = true) (hres : (roundAnswer t r ask).res = .sat)
      (hplain : (asked t r ask).Unextended) (hempty : roundVars r (asked t r ask) = []) :
      Rounds r (ask :: asks) t st [(t, ask)] { st.reading [] [] with stopped := .exhausted }
        (asked t r ask)
  | more {ask : Oracle} {asks : List Oracle} {t t' : Session} {st st' : Enumeration}
      {vs : List ℤ} {value : List Bool} {rest : List (Session × Oracle)}
      (hgt : r.limit.gt st.found.length = true) (hres : (roundAnswer t r ask).res = .sat)
      (hplain : (asked t r ask).Unextended) (hvs : vs = roundVars r (asked t r ask)) (hne : vs ≠ [])
      (hvalue : value = roundValue (asked t r ask) vs)
      (hrest : Rounds r asks (withClause (asked t r ask) (blockingClause vs value))
        (st.reading vs value) rest st' t') :
      Rounds r (ask :: asks) t st ((t, ask) :: rest) st' t'

section Run
variable {r : Request} {asks : List Oracle} {s t t' : Session} {st st' : Enumeration}
  {made : List (Session × Oracle)}

theorem interrupted_last (t : Session) (r : Request) :
    (roundAnswer t r interruptedSearch).interrupted = true := rfl

theorem rounds_of_loop_solving (hs : t.solver.state = .solving) (hr : r.Checked t.aux)
    (hrun : (satSolutionsLoop r.limit r.vars r.assumptions r.constraint asks st).run t =
      (.ok st', t')) : Rounds r asks t st [] st' t' := by
  obtain ⟨e, t₁, hround⟩ := round_solving hs hr
  cases asks <;>
  · rw [satSolutionsLoop] at hrun
    split at hrun
    · rw [hround] at hrun
      cases hrun
    · next hgt =>
      cases hrun
      exact .limit (by simpa using hgt)

theorem rounds_of_loop (hv : t.solver.state.valid = true) (hr : r.Checked t.aux)
    (hrun : (satSolutionsLoop r.limit r.vars r.assumptions r.constraint asks st).run t =
      (.ok st', t')) : ∃ made, Rounds r asks t st made st' t' := by
  induction asks generalizing t st with
  | nil =>
    rw [satSolutionsLoop] at hrun
    split at hrun
    · rcases round_cases hv hr interruptedSearch st with
        ⟨e, t₁, -, hround⟩ | ⟨hi, -⟩ | ⟨hi, -⟩ | ⟨hi, -⟩ | ⟨hi, -⟩
      · rw [hround] at hrun
        cases hrun
      all_goals rw [interrupted_last] at hi; cases hi
    · next hgt =>
      cases hrun
      exact ⟨[], .limit (by simpa using hgt)⟩
  | cons ask asks ih =>
    rw [satSolutionsLoop] at hrun
    split at hrun
    · next hgt =>
      rcases round_cases hv hr ask st with ⟨e, t₁, -, hround⟩ | ⟨-, hres, hround⟩ | ⟨-, hres, hempty, hplain, hround⟩ |
          ⟨-, hres, vs, value, hvs, hvalue, -, hne, hplain, -, hround⟩ |
          ⟨-, -, vs, value, q, l, e, -, -, -, -, -, -, hround⟩
      · rw [hround] at hrun
        cases hrun
      · rw [hround] at hrun
        cases hrun
        exact ⟨_, .missed hgt hres⟩
      · rw [hround] at hrun
        cases hrun
        exact ⟨_, .single hgt hres hplain hempty⟩
      · rw [hround] at hrun
        have haux : (withClause (asked t r ask) (blockingClause vs value)).aux = t.aux :=
          asked_aux t r ask
        obtain ⟨made, hrest⟩ := ih (t := withClause (asked t r ask) (blockingClause vs value)) rfl
          (haux.symm ▸ hr) hrun
        exact ⟨_, .more hgt hres hplain hvs hne hvalue hrest⟩
      · rw [hround] at hrun
        cases hrun
    · next hgt =>
      cases hrun
      exact ⟨[], .limit (by simpa using hgt)⟩

/-- The searches ask the oracles in order. -/
theorem Rounds.oracles (h : Rounds r asks t st made st' t') :
    made.map Prod.snd = asks.take made.length := by
  induction h with
  | limit => rfl
  | missed => rfl
  | single => rfl
  | more _ _ _ _ _ _ _ ih => exact congrArg (_ :: ·) ih

/-- What CaDiCaL records of a search of the loop. -/
def searchOf (r : Request) (x : Session × Oracle) : Search where
  preprocessOnly := false
  maxVar := (searchedFrom x.1 r).maxVar
  assumptions := (searchedFrom x.1 r).assumptions
  constraint := (searchedFrom x.1 r).constraint
  answer := roundAnswer x.1 r x.2

theorem armed_searches (t : Session) (con : Option (List ℤ)) :
    (armed t con).solver.searches = t.solver.searches := by
  cases con <;> rfl

theorem assuming_searches (c : Cadical) (p : List ℤ) : (assuming c p).searches = c.searches := by
  cases p with
  | nil => rfl
  | cons l p => rw [assuming, Cadical.foldl_pushAssumption]; rfl

theorem startSearch_searches (c : Cadical) : c.startSearch.searches = c.searches := by
  rw [Cadical.startSearch, Cadical.updateMoltenLiterals]
  split <;> rfl

theorem asked_searches (t : Session) (r : Request) (ask : Oracle) : (asked t r ask).solver.searches =
    t.solver.searches ++ [searchOf r (t, ask)] := by
  change (searchedFrom t r).searches ++ [searchOf r (t, ask)] = _
  rw [searchedFrom, startSearch_searches, assuming_searches, armed_searches]

theorem Rounds.searches (h : Rounds r asks t st made st' t') :
    t'.solver.searches = t.solver.searches ++ made.map (searchOf r) := by
  induction h with
  | limit => exact (List.append_nil _).symm
  | missed => exact asked_searches _ _ _
  | single => exact asked_searches _ _ _
  | @more ask asks t t' st st' vs value rest _ _ _ _ _ _ _ ih =>
    rw [ih]
    change (asked t r ask).solver.searches ++ _ = _
    rw [asked_searches, List.append_assoc]
    rfl

/-! ## The projection stays -/

theorem asked_maxVar_of_unextended {ask : Oracle} (hplain : (asked t r ask).Unextended) :
    (asked t r ask).solver.maxVar = r.known t.solver.maxVar := by
  have hext : (searchedFrom t r).extensionOf (roundAnswer t r ask) = 0 := by
    by_contra hne
    have hno : ((searchedFrom t r).ervars ((searchedFrom t r).maxVar + 1) ||
        (decide ((searchedFrom t r).maxVar < (searchedFrom t r).maxVar + 1) &&
          decide ((searchedFrom t r).maxVar + 1 ≤ (searchedFrom t r).maxVar +
            (searchedFrom t r).extensionOf (roundAnswer t r ask)))) = false :=
      hplain ((searchedFrom t r).maxVar + 1) (by omega)
    rw [decide_eq_true (by omega), decide_eq_true (by omega), Bool.and_self, Bool.or_true] at hno
    cases hno
  change (searchedFrom t r).maxVar + (searchedFrom t r).extensionOf (roundAnswer t r ask) = _
  rw [hext, Nat.add_zero, searchedFrom_maxVar]

/-- The assignment a search found, on the variables `vs`. -/
def assigned (vs : List ℤ) (q : Search) : List Bool := project vs q.model

/-- What the loop variables say between two rounds. -/
structure Tallying (s : Session) (r : Request) (t : Session) (st : Enumeration) : Prop where
  known : r.vars = none → r.known t.solver.maxVar = r.known s.solver.maxVar
  thisVars : st.found ≠ [] → st.thisVars = r.projection s
  status : st.status = if st.found = [] then .unknown else .sat
  stopped : st.stopped = .limit
  empty : r.projection s = [] → st.found = []

theorem tallying_start (s : Session) (r : Request) :
    Tallying s r s ⟨[], [], .unknown, .limit⟩ :=
  ⟨fun _ => rfl, fun h => absurd rfl h, rfl, rfl, fun _ => rfl⟩

theorem Tallying.roundVars (h : Tallying s r t st) {ask : Oracle}
    (hplain : (asked t r ask).Unextended) :
    Session.roundVars r (asked t r ask) = r.projection s := by
  rw [Session.roundVars, Request.projection]
  cases hvars : r.vars with
  | some vs => rfl
  | none => rw [asked_maxVar_of_unextended hplain, h.known hvars]

theorem Tallying.next (h : Tallying s r t st) {ask : Oracle}
    (hplain : (asked t r ask).Unextended) (hne : r.projection s ≠ []) (value : List Bool) :
    Tallying s r (withClause (asked t r ask) (blockingClause (r.projection s) value))
      (st.reading (r.projection s) value) := by
  refine ⟨fun hvars => ?_, fun _ => rfl, ?_, h.stopped, fun he => absurd he hne⟩
  · have hmax : (withClause (asked t r ask) (blockingClause (r.projection s) value)).solver.maxVar =
        r.known s.solver.maxVar := by
      change max (asked t r ask).solver.maxVar (topVar _) = _
      rw [asked_maxVar_of_unextended hplain, h.known hvars, Request.projection, hvars]
      exact max_eq_left (topVar_blockingClause_le value)
    rw [hmax, Request.known, Request.known, max_assoc, max_self]
  · exact (if_neg (by simp [Enumeration.reading])).symm

/-! ## How the loop ended -/

/-- The loop met its limit, had nothing to project onto, or made one search more that found no model. -/
inductive Ended (r : Request) (vs : List ℤ) (st : Enumeration) : Option (Session × Oracle) → Prop
  | limit (hgt : r.limit.gt st.found.length = false) (hempty : vs = [] → st.found = [])
      (hstopped : st.stopped = .limit) : Ended r vs st none
  | single (hvs : vs = []) (hfound : st.found.length = 1) (hstopped : st.stopped = .exhausted) :
      Ended r vs st none
  | missed {x : Session × Oracle} (hgt : r.limit.gt st.found.length = true)
      (hres : (searchOf r x).answer.res ≠ .sat)
      (hstatus : st.found = [] → st.status = (searchOf r x).answer.res)
      (hstopped : st.stopped = if (searchOf r x).answer.res = .unsat then .exhausted else .unknown) :
      Ended r vs st (some x)

/-- What the loop variables say when it has returned: `hits` found a model, `last` did not. -/
structure Tally (r : Request) (vs : List ℤ) (before : ℕ) (hits : List (Session × Oracle))
    (last : Option (Session × Oracle)) (st : Enumeration) : Prop where
  hits : ∀ x ∈ hits, (searchOf r x).answer.res = .sat
  some : st.found ≠ [] → st.thisVars = vs ∧ st.status = .sat
  none : st.found = [] → last = none → st.status = .unknown
  room : before < st.found.length → r.limit.gt (st.found.length - 1 : ℕ) = true
  empty : vs = [] → st.found.length ≤ 1
  ended : Ended r vs st last

theorem Rounds.tally (h : Rounds r asks t st made st' t') (hvs : ∀ v ∈ r.projection s, 0 < v)
    (ht : Tallying s r t st) : ∃ hits last, made = hits ++ last.toList ∧
      st'.found = st.found ++ hits.map (fun x => assigned (r.projection s) (searchOf r x)) ∧
      Tally r (r.projection s) st.found.length hits last st' := by
  induction h with
  | limit hgt =>
    refine ⟨[], none, rfl, (List.append_nil _).symm, by simp, fun hne => ⟨ht.thisVars hne, ?_⟩,
      fun he _ => ?_, fun h => absurd h (lt_irrefl _), fun he => ?_, .limit hgt ht.empty ht.stopped⟩
    · rw [ht.status, if_neg hne]
    · rw [ht.status, if_pos he]
    · rw [ht.empty he]
      exact Nat.zero_le 1
  | @missed ask asks t st hgt hres =>
    refine ⟨[], some (t, ask), rfl, (List.append_nil _).symm, by simp,
      fun (hne : st.found ≠ []) => ⟨ht.thisVars hne, ?_⟩, fun _ h => (nomatch h), fun h => absurd h (lt_irrefl _),
      fun he => ?_, .missed hgt hres (fun (he : st.found = []) => ?_) rfl⟩
    · change (if st.found.isEmpty then _ else st.status) = _
      rw [if_neg (by simpa using hne), ht.status, if_neg hne]
    · change st.found.length ≤ 1
      rw [ht.empty he]
      exact Nat.zero_le 1
    · change (if st.found.isEmpty then _ else st.status) = _
      rw [if_pos (by simpa using he)]
      rfl
  | @single ask asks t st hgt hres hplain hempty =>
    rw [ht.roundVars hplain] at hempty
    have hnil := ht.empty hempty
    refine ⟨[(t, ask)], none, rfl, ?_, ?_, fun _ => ⟨hempty.symm, rfl⟩, fun he => ?_, fun _ => ?_,
      fun _ => ?_, .single hempty ?_ rfl⟩
    · rw [List.map_singleton, hempty]
      rfl
    · intro x hx
      rw [List.mem_singleton.mp hx]
      exact hres
    · simp [Enumeration.reading] at he
    · simpa [Enumeration.reading, hnil] using hgt
    · simp [Enumeration.reading, hnil]
    · simp [Enumeration.reading, hnil]
  | @more ask asks t t' st st' vs value rest hgt hres hplain hvars hne hvalue hrest ih =>
    rw [ht.roundVars hplain] at hvars
    subst hvars
    rw [roundValue_asked (asked_maxVar_of_unextended hplain) hvs] at hvalue
    obtain ⟨hits, last, hmade, hfound, htally⟩ := ih (ht.next hplain hne value)
    refine ⟨(t, ask) :: hits, last, by rw [hmade]; rfl, ?_, ?_, htally.some, htally.none, fun _ => ?_,
      htally.empty, htally.ended⟩
    · rw [hfound, Enumeration.reading, hvalue, List.append_assoc]
      rfl
    · intro x hx
      rcases List.mem_cons.mp hx with rfl | hx
      · exact hres
      · exact htally.hits x hx
    · by_cases hmore : (st.reading (r.projection s) value).found.length < st'.found.length
      · exact htally.room hmore
      · have hlen : st'.found.length = st.found.length + 1 + hits.length := by
          rw [hfound, List.length_append, List.length_map, Enumeration.reading, List.length_append,
            List.length_singleton]
        have hnow : (st.reading (r.projection s) value).found.length = st.found.length + 1 := by
          rw [Enumeration.reading, List.length_append, List.length_singleton]
        have heq : st'.found.length - 1 = st.found.length := by omega
        rw [heq]
        exact hgt

end Run

/-! ## The report -/

/-- The searches that found a model. -/
def hitsOf (made : List Search) : List Search :=
  made.filter fun x => x.answer.res = .sat

/-- What a report says of the searches behind it. -/
structure Tallied (vs : List ℤ) (made : List Search) (out : Solutions) : Prop where
  solves : made.length ≤ out.nSolutions + 1
  complete : out.complete = true ↔ made.getLast?.map (·.answer.res) = some .unsat ∨
    (made.getLast?.map (·.answer.res) = some .sat ∧ vs = [])
  sat : out.status = .sat ↔ 0 < out.nSolutions
  unsat : out.status = .unsat ↔ made.head?.map (·.answer.res) = some .unsat
  unknown : out.status = .unknown ↔ made = [] ∨ made.head?.map (·.answer.res) = some .unknown
  nSolutions : out.nSolutions = (hitsOf made).length
  columns : out.variableCol.length = out.solutionCol.length ∧
    out.valueCol.length = out.solutionCol.length
  rows : out.rows = rowsOf vs ((hitsOf made).map (assigned vs))

/-- The report also keeps to the limit. -/
structure Booked (limit : RNum) (vs : List ℤ) (made : List Search) (out : Solutions) :
    Prop extends Tallied vs made out where
  limit : limit.lt out.nSolutions = false

/-- The limit is whole or infinite, or one of the searches that would pass it finds no model, or there is
nothing to project onto and one solution is allowed. -/
def WithinLimit (limit : RNum) (vs : List ℤ) (answers : List Answer) : Prop :=
  limit.isWhole = true ∨ (∃ a ∈ answers.take (limit.asInteger.toNat + 1), a.res ≠ .sat) ∨
    (vs = [] ∧ limit.gt 1 = true)

section Tally
variable {r : Request} {vs : List ℤ} {hits : List (Session × Oracle)}
  {last : Option (Session × Oracle)} {st : Enumeration}

theorem hitsOf_tally (h : Tally r vs 0 hits last st) :
    hitsOf ((hits ++ last.toList).map (searchOf r)) = hits.map (searchOf r) := by
  have hhits : hitsOf (hits.map (searchOf r)) = hits.map (searchOf r) := by
    refine List.filter_eq_self.mpr fun x hx => ?_
    obtain ⟨y, hy, rfl⟩ := List.mem_map.mp hx
    exact decide_eq_true (h.hits y hy)
  rw [List.map_append, hitsOf, List.filter_append, ← hitsOf, hhits]
  cases h.ended with
  | limit => exact List.append_nil _
  | single => exact List.append_nil _
  | missed _ hres =>
    rw [Option.toList_some, List.map_singleton, List.filter_singleton, decide_eq_false hres]
    exact List.append_nil _

theorem last_hit (h : ∀ x ∈ hits, (searchOf r x).answer.res = .sat) :
    (hits.map (searchOf r)).getLast?.map (·.answer.res) = if hits = [] then none else some .sat := by
  rcases List.eq_nil_or_concat hits with rfl | ⟨init, x, rfl⟩
  · rfl
  · rw [List.concat_eq_append, if_neg (by simp), List.map_append, List.map_singleton,
      List.getLast?_concat, Option.map_some, h x (by simp)]

theorem complete_tally (h : Tally r vs 0 hits last st) (hlen : st.found.length = hits.length) :
    st.stopped = .exhausted ↔
      ((hits ++ last.toList).map (searchOf r)).getLast?.map (·.answer.res) = some .unsat ∨
        (((hits ++ last.toList).map (searchOf r)).getLast?.map (·.answer.res) = some .sat ∧ vs = []) := by
  cases h.ended with
  | limit _ hempty hstopped =>
    rw [Option.toList_none, List.append_nil, last_hit h.hits, hstopped]
    constructor
    · intro hno
      cases hno
    · rintro (hno | ⟨hsat, hvs⟩)
      · split at hno <;> cases hno
      · rw [hempty hvs, List.length_nil] at hlen
        rw [if_pos (List.length_eq_zero_iff.mp hlen.symm)] at hsat
        cases hsat
  | single hvs hfound hstopped =>
    have hne : hits ≠ [] := by
      rintro rfl
      rw [hfound] at hlen
      cases hlen
    rw [Option.toList_none, List.append_nil, last_hit h.hits, if_neg hne]
    exact ⟨fun _ => .inr ⟨rfl, hvs⟩, fun _ => hstopped⟩
  | @missed x _ hres _ hstopped =>
    rw [Option.toList_some, List.map_append, List.map_singleton, List.getLast?_concat,
      Option.map_some, hstopped]
    constructor
    · intro hex
      split at hex
      · next hunsat => exact .inl (congrArg some hunsat)
      · cases hex
    · rintro (hunsat | ⟨hsat, -⟩)
      · rw [if_pos (Option.some.inj hunsat)]
      · exact absurd (Option.some.inj hsat) hres

theorem status_tally (h : Tally r vs 0 hits last st) (hlen : st.found.length = hits.length) :
    st.status = (((hits ++ last.toList).map (searchOf r)).head?.map (·.answer.res)).getD .unknown := by
  cases hits with
  | nil =>
    have hfound := List.length_eq_zero_iff.mp hlen
    cases h.ended with
    | limit => exact h.none hfound rfl
    | single _ hone =>
      rw [hfound] at hone
      cases hone
    | missed _ _ hstatus => exact hstatus hfound
  | cons x hits =>
    have hfound : st.found ≠ [] := by
      intro hnil
      rw [hnil] at hlen
      cases hlen
    rw [(h.some hfound).2]
    exact (h.hits x (List.mem_cons_self ..)).symm

theorem tallied (h : Tally r vs 0 hits last st)
    (hfound : st.found = hits.map fun x => assigned vs (searchOf r x)) :
    Tallied vs ((hits ++ last.toList).map (searchOf r))
      (newSolutions st.found vs st.status st.stopped) := by
  have hlen : st.found.length = hits.length := by rw [hfound, List.length_map]
  have hwidth : ∀ b ∈ st.found, b.length = vs.length := by
    rw [hfound]
    intro b hb
    obtain ⟨x, -, rfl⟩ := List.mem_map.mp hb
    exact List.length_map _
  have hstatus := status_tally h hlen
  refine ⟨?_, ?_, ?_, ?_, ?_, ?_, columns_newSolutions hwidth, ?_⟩
  · change _ ≤ st.found.length + 1
    rw [List.length_map, List.length_append, hlen]
    cases last <;> simp
  · rw [← complete_tally h hlen]
    exact decide_eq_true_iff
  · change st.status = .sat ↔ 0 < st.found.length
    constructor
    · intro hsat
      by_contra hpos
      obtain rfl := List.length_eq_zero_iff.mp (show hits.length = 0 by omega)
      rw [hsat] at hstatus
      cases h.ended with
      | limit => cases hstatus
      | single => cases hstatus
      | missed _ hres => exact hres hstatus.symm
    · intro hpos
      exact (h.some (List.length_pos_iff.mp hpos)).2
  · change st.status = .unsat ↔ _
    rw [hstatus]
    cases ((hits ++ last.toList).map (searchOf r)).head? <;> simp
  · change st.status = .unknown ↔ _
    rw [hstatus]
    cases (hits ++ last.toList).map (searchOf r) <;> simp
  · rw [hitsOf_tally h, List.length_map]
    exact hlen
  · rw [rows_newSolutions hwidth, hitsOf_tally h, List.map_map, hfound]
    rfl

/-! ## The limit -/

theorem tdiv_eq_floor {q : ℚ} (hq : 0 ≤ q) : q.num.tdiv q.den = ⌊q⌋ := by
  rw [Int.tdiv_eq_ediv_of_nonneg (Rat.num_nonneg.mpr hq), Rat.floor_def']

theorem solutionLimit_ok {v : RValue} {x : RNum} (h : solutionLimit v = .ok x) :
    x = .inf false ∨ ∃ q, x = .fin q ∧ 0 ≤ q := by
  cases v with
  | num xs =>
    match xs with
    | [] => cases h
    | [y] =>
      rw [solutionLimit] at h
      split at h
      · cases h
      · next hno =>
        obtain rfl := Except.ok.inj h
        cases y with
        | na => exact absurd rfl hno
        | nan => exact absurd rfl hno
        | inf negative =>
          cases negative with
          | false => exact .inl rfl
          | true => exact absurd rfl hno
        | fin q =>
          refine .inr ⟨q, rfl, ?_⟩
          simpa [RNum.isNA, RNum.lt] using hno
    | _ :: _ :: _ => cases h
  | _ => cases h

theorem hits_answers {answers : List Answer} (h : Tally r vs 0 hits last st)
    (hanswers : ((hits ++ last.toList).map (searchOf r)).map Search.answer =
      answers.take (hits ++ last.toList).length) :
    (∀ a ∈ answers.take hits.length, a.res = .sat) ∧
      ∀ x, last = some x → answers[hits.length]? = some (searchOf r x).answer := by
  rw [List.map_append, List.map_append, List.length_append] at hanswers
  constructor
  · have htake : answers.take hits.length = (hits.map (searchOf r)).map Search.answer := by
      have := congrArg (List.take hits.length) hanswers
      rw [List.take_take, Nat.min_eq_left (Nat.le_add_right ..), List.take_left'
        (by rw [List.length_map, List.length_map])] at this
      exact this.symm
    intro a ha
    rw [htake] at ha
    obtain ⟨x, hx, rfl⟩ := List.mem_map.mp ha
    obtain ⟨y, hy, rfl⟩ := List.mem_map.mp hx
    exact h.hits y hy
  · rintro x rfl
    have := congrArg (·[hits.length]?) hanswers
    simp only [Option.toList_some, List.length_singleton, List.map_singleton] at this
    rw [List.getElem?_append_right (by simp), List.getElem?_take_of_lt (Nat.lt_succ_self _)] at this
    simpa using this.symm

theorem within_iff {answers : List Answer} {v : RValue} (hlimit : solutionLimit v = .ok r.limit)
    (h : Tally r vs 0 hits last st) (hlen : st.found.length = hits.length)
    (hanswers : ((hits ++ last.toList).map (searchOf r)).map Search.answer =
      answers.take (hits ++ last.toList).length) :
    r.limit.lt st.found.length = false ↔ WithinLimit r.limit vs answers := by
  obtain ⟨hall, hmiss⟩ := hits_answers h hanswers
  have hroom := h.room
  have hended := h.ended
  rw [hlen] at hroom ⊢
  rcases solutionLimit_ok hlimit with hinf | ⟨q, hfin, hq⟩
  · rw [hinf]
    exact ⟨fun _ => .inl rfl, fun _ => rfl⟩
  · rw [hfin] at hroom ⊢
    have hfloor : (⌊q⌋ : ℚ) ≤ q := Int.floor_le q
    have hceil : q < ⌊q⌋ + 1 := Int.lt_floor_add_one q
    have hpos : 0 ≤ ⌊q⌋ := Int.floor_nonneg.mpr hq
    have hwhole : RNum.isWhole (.fin q) = true ↔ q = (⌊q⌋ : ℤ) := by
      rw [RNum.isWhole, tdiv_eq_floor hq, decide_eq_true_iff]
    have hlt : RNum.lt (.fin q) hits.length = false ↔ (hits.length : ℤ) ≤ ⌊q⌋ := by
      rw [RNum.lt, decide_eq_false_iff_not, not_lt, Int.le_floor]
    have hgt : ∀ n : ℕ, RNum.gt (.fin q) n = true ↔ (n : ℚ) < q := by
      intro n
      rw [RNum.gt, decide_eq_true_iff]
      rfl
    have hint : RNum.asInteger (.fin q) = ⌊q⌋ := tdiv_eq_floor hq
    rw [WithinLimit, hwhole, hlt, hint]
    constructor
    · intro hle
      by_contra hno
      rw [not_or, not_or] at hno
      obtain ⟨hfrac, hsat, hone⟩ := hno
      have hstrict : (⌊q⌋ : ℚ) < q := lt_of_le_of_ne hfloor fun h => hfrac h.symm
      have hbelow : (hits.length : ℚ) < q := lt_of_le_of_lt (by exact_mod_cast hle) hstrict
      cases hended with
      | limit hstop =>
        rw [hfin, hlen, (hgt _).mpr hbelow] at hstop
        cases hstop
      | single hvs hfound =>
        refine hone ⟨hvs, (hgt 1).mpr ?_⟩
        rw [hlen] at hfound
        rwa [hfound] at hbelow
      | missed _ hres =>
        have hmem : (answers.take (⌊q⌋.toNat + 1))[hits.length]? = some (searchOf r _).answer :=
          (List.getElem?_take_of_lt (by omega)).trans (hmiss _ rfl)
        exact hsat ⟨_, List.mem_of_getElem? hmem, hres⟩
    · rintro (heq | ⟨a, ha, hres⟩ | ⟨hvs, hone⟩)
      · by_cases hnone : hits.length = 0
        · omega
        · have hprev := (hgt _).mp (hroom (Nat.pos_of_ne_zero hnone))
          rw [heq] at hprev
          have hprev : ((hits.length - 1 : ℕ) : ℤ) < ⌊q⌋ := by exact_mod_cast hprev
          omega
      · by_contra hmore
        exact hres (hall a ((List.take_prefix_take_left (by omega)).mem ha))
      · have hle := h.empty hvs
        have hone := (hgt 1).mp hone
        have : (1 : ℤ) ≤ ⌊q⌋ := Int.le_floor.mpr (by exact_mod_cast hone.le)
        omega

end Tally

/-! ## The report against the answers -/

section Returned
variable {s s' : Session} {limit vars assumptions constraint : RValue} {asks : List Oracle}
  {out : Solutions}

theorem solutionsHands_limit {r : Request}
    (h : solutionsHands s limit vars assumptions constraint = .ok r) :
    solutionLimit limit = .ok r.limit := by
  obtain ⟨x, hx, h⟩ := except_bind_ok.mp h
  rw [hx]
  cases hpend : s.handle.constraintPending with
  | true =>
    rw [hpend] at h
    cases h
  | false =>
    rw [hpend, if_neg Bool.false_ne_true] at h
    obtain ⟨as, -, h⟩ := except_bind_ok.mp h
    obtain ⟨_, -, h⟩ := except_bind_ok.mp h
    obtain ⟨con, -, h⟩ := except_bind_ok.mp h
    obtain ⟨vs, -, h⟩ := except_bind_ok.mp h
    obtain rfl := Except.ok.inj h
    rfl

/-- A report, the loop behind it and how that loop ended. -/
theorem satSolutions_rounds (hs : s.solver.state.valid = true ∨ s.solver.state = .solving)
    (hrun : (satSolutions limit vars assumptions constraint asks).run s = (.ok out, s')) :
    ∃ r st hits last, solutionsHands s limit vars assumptions constraint = .ok r ∧
      Rounds r asks s ⟨[], [], .unknown, .limit⟩ (hits ++ last.toList) st s' ∧
      st.found = hits.map (fun x => assigned (r.projection s) (searchOf r x)) ∧
      Tally r (r.projection s) 0 hits last st ∧
      out = newSolutions st.found (r.projection s) st.status st.stopped := by
  rw [run_satSolutions, run_bind] at hrun
  cases hr : solutionsHands s limit vars assumptions constraint with
  | error e =>
    rw [hr] at hrun
    cases hrun
  | ok r =>
    rw [hr, run_ofExcept_ok, andThen_ok, enumerate] at hrun
    obtain ⟨hchecked, -, -⟩ := solutionsHands_ok hr
    obtain ⟨st, t, hloop, hout⟩ := run_bind_ok.mp hrun
    obtain ⟨rfl, rfl⟩ : newSolutions st.found (if st.found.isEmpty then [] else st.thisVars)
        st.status st.stopped = out ∧ t = s' := by
      obtain ⟨h1, h2⟩ := Prod.ext_iff.mp hout
      exact ⟨Except.ok.inj h1, h2⟩
    obtain ⟨made, hrounds⟩ := hs.elim (fun hv => rounds_of_loop hv hchecked hloop)
      fun hsolving => ⟨[], rounds_of_loop_solving hsolving hchecked hloop⟩
    obtain ⟨hits, last, rfl, hfound, htally⟩ :=
      hrounds.tally hchecked.projection_pos (tallying_start s r)
    exact ⟨r, st, hits, last, rfl, hrounds, hfound, htally,
      newSolutions_vars _ _ _ _ _ fun hne => (htally.some hne).1⟩

theorem answers_of_oracles {r : Request} {made : List (Session × Oracle)} {answers : List Answer}
    (h : made.map Prod.snd = answers.map fun a _ => a) :
    made.map (Search.answer ∘ searchOf r) = answers := by
  induction made generalizing answers with
  | nil => exact (List.map_eq_nil_iff.mp h.symm).symm
  | cons x made ih =>
    cases answers with
    | nil => cases h
    | cons a answers =>
      obtain ⟨hx, hmade⟩ := List.cons.inj h
      have hanswer : (searchOf r x).answer = a := congrFun hx _
      rw [List.map_cons, ih hmade, Function.comp_apply, hanswer]

end Returned

/-- Whatever the searches answer, the report of an enumeration tallies with them; it also keeps to the
limit exactly when the limit is whole or infinite, or the searches stop short of passing it. -/
theorem bookkeeping_iff (cs : List Call) (limit vars assumptions constraint : RValue)
    (answers : List Answer) {out : Solutions} {s' : Session}
    (hrun : (satSolutions limit vars assumptions constraint (answers.map fun a _ => a)).run
      (after cs) = (.ok out, s')) :
    ∃ r made, solutionsHands (after cs) limit vars assumptions constraint = .ok r ∧
      s'.solver.searches = (after cs).solver.searches ++ made ∧
      made.map Search.answer = answers.take made.length ∧
      Tallied (r.projection (after cs)) made out ∧
      (Booked r.limit (r.projection (after cs)) made out ↔
        WithinLimit r.limit (r.projection (after cs)) answers) := by
  obtain ⟨r, st, hits, last, hr, hrounds, hfound, htally, rfl⟩ :=
    satSolutions_rounds (rangesKnown_after cs).settled.valid_or_solving hrun
  have hlen : st.found.length = hits.length := by rw [hfound, List.length_map]
  have hanswers : ((hits ++ last.toList).map (searchOf r)).map Search.answer =
      answers.take (hits ++ last.toList).length := by
    rw [List.map_map]
    exact answers_of_oracles (hrounds.oracles.trans List.map_take.symm)
  have htallied := tallied htally hfound
  refine ⟨r, (hits ++ last.toList).map (searchOf r), hr, ?_, ?_, htallied, ?_⟩
  · exact hrounds.searches
  · rw [hanswers, List.length_map]
  · rw [← within_iff (solutionsHands_limit hr) htally hlen hanswers]
    exact ⟨fun h => h.limit, fun h => ⟨htallied, h⟩⟩

/-- The answer that makes every variable true. -/
def allTrue : Answer := ⟨.sat, false, fun _ => true, fun _ => false, false, 0, .unsat⟩

def half : ℚ := ⟨1, 2, by decide, by decide⟩

theorem half_limit_passed : ∃ out s', (satSolutions (.num [.fin half]) .null (.ints []) .null
      [fun _ => allTrue]).run (after [.add (.value (.ints [1]))]) = (.ok out, s') ∧
    out.nSolutions = 1 ∧ RNum.lt (.fin half) out.nSolutions = true := by
  refine ⟨_, _, rfl, rfl, ?_⟩
  change RNum.lt (.fin half) 1 = true
  decide

theorem bookkeeping_iff_two : ∃ out s', (satSolutions (.ints [2]) (.ints [1]) (.ints []) .null
      ([allTrue, { allTrue with res := .unsat }].map fun a _ => a)).run
        (after [.add (.value (.ints [1]))]) = (.ok out, s') ∧ out.complete = true ∧
    ∃ made, Booked (.fin 2) [1] made out := by
  refine ⟨_, _, rfl, rfl, ?_⟩
  obtain ⟨r, made, hr, -, -, -, hiff⟩ := bookkeeping_iff [.add (.value (.ints [1]))] (.ints [2])
    (.ints [1]) (.ints []) .null [allTrue, { allTrue with res := .unsat }] rfl
  cases hr
  exact ⟨made, hiff.mpr (.inl (by decide))⟩

end Session
end Zusat
