import Zusat.Handle.Flags
import Zusat.Model.Ledger

/-! # Who closes a proof file, and when

The handle owns at most one proof file, CaDiCaL a growing list of tracers of which at most the last is not
closed. Over every sequence of entry calls the log beside the handle is one `Owner.advance` accepts, and
the state of the handle says where in it the owner stands. -/

namespace Zusat
open Foundations Foundations.Prog
set_option autoImplicit false

namespace Handle
open Cadical (Looks looks_require looks_requireValidState looks_requireValidLit looks_get)

/-! ## Calls that leave the files alone -/

/-- What a call may not touch unless it starts or closes a trace. -/
def files (h : Handle) : Option ℕ × Bool × ℕ × List Tracer :=
  (h.proof, h.proofTraced, h.opened, h.solver.fileTracers)

abbrev KeepsTracers {α : Type} (m : CadicalM α) : Prop :=
  Respects (fun c c' => c'.fileTracers = c.fileTracers) m

abbrev KeepsFiles {α : Type} (m : HandleM α) : Prop := Respects (fun h h' => files h' = files h) m

theorem along_tracers : Along (fun c c' : Cadical => c'.fileTracers = c.fileTracers)
    (fun (_ : RError) c c' => c'.fileTracers = c.fileTracers) := along_view Cadical.fileTracers

theorem along_files : Along (fun h h' : Handle => files h' = files h)
    (fun (_ : RError) h h' => files h' = files h) := along_view files

theorem tracers_looks {α : Type} {m : CadicalM α} (hm : Looks m) : KeepsTracers m :=
  respects_of_snd fun c => congrArg _ (hm.snd c)

theorem files_looks {α : Type} {m : HandleM α} (hm : Looks m) : KeepsFiles m :=
  respects_of_snd fun h => congrArg _ (hm.snd h)

theorem files_call {α : Type} {m : CadicalM α} (hm : KeepsTracers m) : KeepsFiles (call m) :=
  Moves.within hm (fun h _ hc => by rw [files, files, withSolver, hc])
    (fun _ h _ hc => by rw [files, files, withSolver, hc])

theorem tracers_internalize (l : ℤ) : KeepsTracers (Cadical.internalize l) :=
  along_tracers.doIf (along_tracers.bind (Moves.modify fun _ => rfl) fun _ =>
    along_tracers.bind along_tracers.read fun _ =>
      along_tracers.doIf (along_tracers.require fun _ => rfl))

theorem tracers_add (l : ℤ) : KeepsTracers (Cadical.add l) := by
  have law := along_tracers
  have hdeclared : KeepsTracers (Cadical.requireDeclared l) :=
    law.bind law.read fun _ => law.bind (law.doIf (law.require fun _ => rfl)) fun _ =>
      law.doIf (law.require fun _ => rfl)
  have hexternal : KeepsTracers (Cadical.externalAdd l) :=
    law.bind law.read fun _ => law.bind (law.doIf (law.require fun _ => rfl)) fun _ =>
      law.bind (Moves.modify fun c => by rw [Cadical.saveOriginal_eq]) fun _ =>
        law.bind (tracers_internalize l) fun _ => by split <;> exact Moves.modify fun _ => rfl
  exact law.bind (tracers_looks (looks_requireValidState _)) fun _ => law.bind (law.doIf hdeclared) fun _ =>
    law.bind (law.doIf (tracers_looks (looks_requireValidLit _ _))) fun _ =>
      law.bind (Moves.modify fun _ => rfl) fun _ => law.bind hexternal fun _ =>
        law.bind (Moves.modify fun _ => rfl) fun _ => Moves.modify fun _ => rfl

theorem tracers_constrain (l : ℤ) : KeepsTracers (Cadical.constrain l) := by
  have law := along_tracers
  have hexternal : KeepsTracers (Cadical.externalConstrain l) :=
    law.bind (Moves.modify fun _ => rfl) fun _ => law.bind (tracers_internalize l) fun _ =>
      Moves.modify fun _ => rfl
  exact law.bind (tracers_looks (looks_requireValidState _)) fun _ =>
    law.bind (law.doIf (tracers_looks (looks_requireValidLit _ _))) fun _ =>
      law.bind (Moves.modify fun _ => rfl) fun _ => law.bind hexternal fun _ =>
        law.bind (Moves.modify fun _ => rfl) fun _ => Moves.modify fun _ => rfl

theorem tracers_assume (l : ℤ) : KeepsTracers (Cadical.assume l) := by
  have law := along_tracers
  exact law.bind (tracers_looks (looks_requireValidState _)) fun _ =>
    law.bind (tracers_looks (looks_requireValidLit _ _)) fun _ => law.bind (Moves.modify fun _ => rfl) fun _ =>
      law.bind (Moves.modify fun _ => rfl) fun _ => tracers_internalize l

theorem tracers_externalSolve (pre : Bool) (ask : Oracle) :
    KeepsTracers (Cadical.callExternalSolve pre ask) := by
  have law := along_tracers
  have hmolten : KeepsTracers (modify Cadical.updateMoltenLiterals) := Moves.modify fun c => by
    rw [Cadical.updateMoltenLiterals]
    split <;> rfl
  exact law.bind (Moves.modify fun _ => rfl) fun _ => law.bind (Moves.modify fun _ => rfl) fun _ =>
    law.bind (law.bind hmolten fun _ => law.bind law.read fun _ =>
      law.bind (Moves.modify fun _ => rfl) fun _ => law.bind law.read fun _ =>
        law.bind (law.ofExcept fun _ _ _ => rfl) fun _ =>
          law.bind (Moves.modify fun _ => rfl) fun _ => law.pure _) fun _ =>
            law.bind (Moves.modify fun _ => rfl) fun _ => law.pure _

theorem tracers_ready (fn : String) : KeepsTracers (Cadical.requireReadyState fn) :=
  along_tracers.bind (tracers_looks (looks_requireValidState _)) fun _ =>
    along_tracers.bind along_tracers.read fun _ => along_tracers.require fun _ => rfl

/-- Every entry point but the two that start and close a trace. -/
theorem keepsFiles_entry (e : EntryCall) (htrace : ∀ path canOpen, e ≠ .traceProof path canOpen)
    (hclose : e ≠ .closeProof) : KeepsFiles (entry e) := by
  have law := along_files
  have hlits : ∀ {α : Type} (x : Except RError α), KeepsFiles (ofExcept x) := fun x =>
    files_looks (looks_ofExcept x)
  have hset : KeepsFiles (Handle.call Cadical.setTerminate) :=
    files_call (tracers_looks (looks_requireValidState _))
  have hmod : ∀ {f : Handle → Handle}, (∀ h, files (f h) = files h) → KeepsFiles (modify f) :=
    fun h => Moves.modify h
  have hsearch : ∀ what {m : CadicalM Answer}, KeepsTracers m → KeepsFiles (search what m) :=
    fun what m hm => law.bind (hmod fun _ => rfl) fun _ => law.bind hset fun _ =>
      law.bind (files_call hm) fun _ => law.bind (hmod fun _ => rfl) fun _ => law.bind hset fun _ =>
        law.bind (hmod fun _ => rfl) fun _ => law.bind (law.require fun _ => rfl) fun _ =>
          law.bind (hmod fun _ => rfl) fun _ => law.pure _
  cases e with
  | addClause lits =>
    exact law.bind (law.bind (hlits _) fun _ => law.bind (hlits _) fun _ =>
      law.bind (hmod fun _ => rfl) fun _ => law.bind (law.each fun l _ => files_call (tracers_add l)) fun _ =>
        files_call (tracers_add 0)) fun _ => law.pure _
  | solve assumptions ask =>
    exact law.bind (law.bind (hlits _) fun _ => law.bind (hlits _) fun _ =>
      law.bind (hmod fun _ => rfl) fun _ => law.bind (law.each fun l _ => files_call (tracers_assume l)) fun _ =>
        hsearch "solve" (along_tracers.bind (tracers_ready _) fun _ => tracers_externalSolve false ask)) fun _ =>
          law.pure _
  | simplify ask =>
    exact law.bind (law.bind (hmod fun _ => rfl) fun _ => hsearch "simplify"
      (along_tracers.bind (tracers_ready _) fun _ => along_tracers.bind (Moves.modify fun _ => rfl) fun _ =>
        tracers_externalSolve true ask)) fun _ => law.pure _
  | constrain lits =>
    exact law.bind (law.bind (hlits _) fun _ => law.bind (hlits _) fun _ =>
      law.bind (hmod fun _ => rfl) fun _ => law.bind (law.each fun l _ => files_call (tracers_constrain l)) fun _ =>
        law.bind (files_call (tracers_constrain 0)) fun _ => hmod fun _ => rfl) fun _ => law.pure _
  | reserve n =>
    have hdeclare : ∀ k, KeepsTracers (Cadical.declareMoreVariables k) := fun k =>
      along_tracers.bind (tracers_looks (looks_requireValidState _)) fun _ =>
        along_tracers.bind (Moves.modify fun _ => rfl) fun _ => Moves.modify fun _ => rfl
    have hvars : KeepsFiles (Handle.call Cadical.vars) := files_call (tracers_looks Cadical.looks_vars)
    exact law.bind (law.bind (hlits _) fun _ => law.bind (law.require fun _ => rfl) fun _ =>
      law.bind hvars fun _ => law.bind (law.doIf (law.bind (hmod fun _ => rfl) fun _ =>
        files_call (hdeclare _))) fun _ => hvars) fun _ => law.pure _
  | limit name value =>
    exact law.bind (law.bind (hlits _) fun _ => law.bind (hlits _) fun _ =>
      files_call (tracers_limit _ _)) fun _ => law.pure _
  | setOption name value =>
    exact law.bind (law.bind (hlits _) fun _ => law.bind (hlits _) fun _ =>
      law.bind (law.require fun _ => rfl) fun _ => law.bind (files_call (tracers_set _ _)) fun _ =>
        files_call (tracers_looks (looks_get _))) fun _ => law.pure _
  | fixed lits root => exact law.bind (files_looks (looks_zusatFixed lits root)) fun _ => law.pure _
  | value vars => exact law.bind (files_looks (looks_zusatValue vars)) fun _ => law.pure _
  | failed assumptions =>
    exact law.bind (files_looks (looks_zusatFailed assumptions)) fun _ => law.pure _
  | constraintFailed => exact law.bind (files_looks looks_zusatConstraintFailed) fun _ => law.pure _
  | conclude => exact law.bind (files_looks looks_zusatConclude) fun _ => law.pure _
  | traceProof path canOpen => exact absurd rfl (htrace path canOpen)
  | closeProof => exact absurd rfl hclose

end Handle
namespace Ledger
open Handle (Truthful files)

/-! ## Forgetting the log -/

/-- Without its log the program is the other one. -/
def Erases {α : Type} (m : LedgerM α) (m' : HandleM α) : Prop :=
  ∀ l, (m.run l).1 = (m'.run l.handle).1 ∧ (m.run l).2.handle = (m'.run l.handle).2

section Erase
variable {α β : Type}

theorem Erases.bind {m : LedgerM α} {m' : HandleM α} {f : α → LedgerM β} {f' : α → HandleM β}
    (hm : Erases m m') (hf : ∀ a, Erases (f a) (f' a)) : Erases (m >>= f) (m' >>= f') := by
  intro l
  obtain ⟨h1, h2⟩ := hm l
  rw [run_bind, run_bind]
  rcases hr : m.run l with ⟨r, l'⟩
  rcases hr' : m'.run l.handle with ⟨r', h'⟩
  rw [hr, hr'] at h1 h2
  obtain rfl : r = r' := h1
  obtain rfl : l'.handle = h' := h2
  cases r with
  | error e => exact ⟨rfl, rfl⟩
  | ok a => exact hf a l'

theorem erases_onHandle (m : HandleM α) : Erases (onHandle m) m := fun _ => ⟨rfl, rfl⟩

theorem erases_pure (a : α) : Erases (pure a) (pure a) := fun _ => ⟨rfl, rfl⟩

theorem erases_ofExcept (x : Except RError α) : Erases (ofExcept x) (ofExcept x) := by
  cases x <;> exact fun _ => ⟨rfl, rfl⟩

theorem erases_require (b : Bool) (e : RError) : Erases (require b e) (require b e) := by
  cases b <;> exact fun _ => ⟨rfl, rfl⟩

theorem Erases.doIf {m : LedgerM Unit} {m' : HandleM Unit} (hm : Erases m m') (b : Bool) :
    Erases (doIf b m) (doIf b m') := by
  cases b with
  | false => exact fun _ => ⟨rfl, rfl⟩
  | true => exact hm

theorem erases_read {f : Ledger → LedgerM β} {f' : Handle → HandleM β}
    (hf : ∀ l, Erases (f l) (f' l.handle)) : Erases (read >>= f) (read >>= f') := fun l => hf l l

/-- What only adds to the log. -/
abbrev Silent (m : LedgerM Unit) : Prop := Erases m (pure ())

theorem silent_note (es : List Event) : Silent (note es) := fun _ => ⟨rfl, rfl⟩

theorem silent_writes : Silent writes := fun _ => ⟨rfl, rfl⟩

theorem Silent.bind {w : LedgerM Unit} {m : LedgerM β} {m' : HandleM β} (hw : Silent w)
    (hm : Erases m m') : Erases (w >>= fun _ => m) m' := by
  intro l
  exact Erases.bind hw (fun _ => hm) l

theorem Erases.then {m : LedgerM Unit} {m' : HandleM Unit} {w : LedgerM Unit} (hm : Erases m m')
    (hw : Silent w) : Erases (m >>= fun _ => w) m' := by
  intro l
  obtain ⟨h1, h2⟩ := Erases.bind hm (fun _ => hw) l
  rw [h1, h2, run_bind]
  rcases m'.run l.handle with ⟨r, h⟩
  cases r <;> exact ⟨rfl, rfl⟩

end Erase

theorem erases_closeTracers : Erases ccadicalCloseProof (Handle.call Cadical.closeProofTrace) := by
  intro l
  exact ((erases_onHandle _).then ((silent_note _).bind (silent_note _))) l

theorem erases_fcloseProof : Erases fcloseProof (modify fun h =>
    { h with fclosed := h.fclosed ++ h.proof.toList, proof := none, proofTraced := false }) := by
  intro l
  exact (silent_note _).bind (erases_onHandle _) l

/-- The log changes nothing about what an entry call does. -/
theorem erases_entry (e : EntryCall) : Erases (entry e) (Handle.entry e) := by
  have hother : ∀ e, Erases (do writes; onHandle (Handle.entry e)) (Handle.entry e) := fun e =>
    silent_writes.bind (erases_onHandle _)
  cases e with
  | traceProof path canOpen =>
    refine Erases.bind ?_ fun _ => erases_pure _
    refine (erases_ofExcept _).bind fun _ => erases_read fun _ => (erases_require _ _).bind fun _ =>
      (erases_require _ _).bind fun _ => (erases_require _ _).bind fun _ => (silent_note _).bind ?_
    exact (erases_onHandle _).bind fun _ => ((erases_onHandle _).then ((silent_note _).bind
      silent_writes)).bind fun _ => erases_onHandle _
  | closeProof =>
    refine Erases.bind ?_ fun _ => erases_pure _
    exact erases_read fun _ => (erases_require _ _).bind fun _ =>
      (erases_closeTracers.doIf _).bind fun _ => erases_fcloseProof
  | addClause | solve | simplify | constrain | reserve | limit | setOption | fixed | value | failed
  | constraintFailed | conclude => exact hother _

theorem erases_finalize : Erases zusatFinalize Handle.zusatFinalize :=
  erases_read fun _ => Erases.then (Erases.doIf ((erases_closeTracers.doIf _).bind fun _ =>
    erases_fcloseProof) _) silent_writes

theorem handle_run (es : List EntryCall) (l : Ledger) :
    (run entryStep l es).handle = run Handle.entryStep l.handle es := by
  induction es generalizing l with
  | nil => rfl
  | cons e es ih =>
    rw [run_cons, run_cons, ih]
    exact congrArg (fun h => run Handle.entryStep h es) (erases_entry e l).2

/-! ## The handle and its log agree -/

/-- How far the handle is with the last file it opened. -/
def phase (h : Handle) : Phase :=
  if h.proofTraced then .working else if h.proof.isSome then .idle else .shut

/-- The handle owns what the log says is open, and CaDiCaL writes to nothing else. -/
structure Owns (l : Ledger) : Prop where
  truthful : Truthful l.handle
  follows : Owner.start.follow l.events = some ⟨l.handle.opened, phase l.handle⟩
  latest : ∀ f, l.handle.proof = some f → f + 1 = l.handle.opened
  traced : l.handle.proofTraced = true → l.handle.proof.isSome = true
  writable : writable l.handle.solver = if l.handle.proofTraced then l.handle.proof.toList else []

theorem owns_new : Owns new :=
  ⟨Handle.truthful_new, rfl, fun _ h => absurd h nofun, fun h => absurd h nofun, rfl⟩

section Owned
variable {l : Ledger}

theorem follow_more {es fs : List Event} {o o' : Owner} (hes : Owner.start.follow es = some o)
    (hfs : o.follow fs = some o') : Owner.start.follow (es ++ fs) = some o' := by
  rw [Owner.follow_append, hes]
  exact hfs

/-- What CaDiCaL writes, it writes to the file of the handle. -/
theorem Owns.writes (h : Owns l) : Owner.start.follow (l.events ++ (Ledger.writable l.handle.solver).map .used)
    = some ⟨l.handle.opened, phase l.handle⟩ := by
  refine follow_more h.follows ?_
  rw [h.writable]
  cases htr : l.handle.proofTraced with
  | false => rfl
  | true =>
    obtain ⟨f, hf⟩ := Option.isSome_iff_exists.mp (h.traced htr)
    have hphase : phase l.handle = .working := by rw [phase, htr, if_pos rfl]
    rw [if_pos rfl, hf, hphase]
    change (Owner.advance _ (.used f)).bind _ = _
    rw [Owner.advance, if_pos ⟨rfl, h.latest f hf⟩]
    rfl

/-- A call that leaves the files alone. -/
theorem Owns.other (h : Owns l) {e : EntryCall} 
    (hrun : entry e = do Ledger.writes; onHandle (Handle.entry e))
    (htrace : ∀ path canOpen, e ≠ .traceProof path canOpen) (hclose : e ≠ .closeProof) :
    Owns (entryStep l e).2 := by
  have hfiles : files ((Handle.entry e).run l.handle).2 = files l.handle :=
    (Handle.keepsFiles_entry e htrace hclose).snd l.handle
  simp only [files, Prod.mk.injEq] at hfiles
  obtain ⟨hproof, htraced, hopened, htracers⟩ := hfiles
  have hafter : (entryStep l e).2 = ⟨((Handle.entry e).run l.handle).2,
      l.events ++ (Ledger.writable l.handle.solver).map .used⟩ := by
    rw [entryStep, hrun]
    rfl
  rw [hafter]
  refine ⟨h.truthful.step e, ?_, ?_, ?_, ?_⟩
  · rw [h.writes, phase, phase, hproof, htraced, hopened]
  · intro f hf
    rw [hopened]
    exact h.latest f (hproof.symm.trans hf)
  · intro htr
    rw [hproof]
    exact h.traced (htraced.symm.trans htr)
  · rw [Ledger.writable, htracers, htraced, hproof]
    exact h.writable

/-! ## Starting a trace -/

/-- The log once file `n` is being traced to. -/
def started (es : List Event) (n : ℕ) : List Event :=
  es ++ [.opened n] ++ [.attached n] ++ [.used n]

theorem writable_tracing (c : Cadical) (n : ℕ) :
    writable (Handle.tracing c n) = writable c ++ [n] := by
  rw [writable, Handle.tracing, List.filter_append, List.map_append]
  rfl

/-- A trace starts, or nothing happens. -/
theorem zusatTraceProof_cases (h : Owns l) (path : SEXP) (canOpen : Bool) :
    (∃ t, (zusatTraceProof path canOpen).run l = (.error (.stop t), l)) ∨
      l.handle.proof = none ∧ (zusatTraceProof path canOpen).run l = (.ok (),
        ⟨{ (Handle.opening l.handle).withSolver (Handle.tracing l.handle.solver l.handle.opened) with
            proofTraced := true }, started l.events l.handle.opened⟩) := by
  unfold zusatTraceProof
  rw [run_bind]
  split
  · rw [run_ofExcept_ok, andThen_ok, run_bind, run_read, andThen_ok, run_bind]
    cases hproof : l.handle.proof with
    | some f => exact .inl ⟨_, rfl⟩
    | none =>
      rw [Option.isNone_none, run_require_true, andThen_ok, run_bind]
      cases hc : l.handle.configuring with
      | false => exact .inl ⟨_, rfl⟩
      | true =>
        rw [run_require_true, andThen_ok, run_bind]
        cases canOpen with
        | false => exact .inl ⟨_, rfl⟩
        | true =>
          have htraced : l.handle.proofTraced = false := by
            by_contra htr
            have hsome := h.traced (Bool.eq_true_of_not_eq_false htr)
            rw [hproof] at hsome
            cases hsome
          have hwritable : writable (Handle.tracing l.handle.solver l.handle.opened) =
              [l.handle.opened] := by
            rw [writable_tracing, h.writable, htraced]
            rfl
          have htrace : ∀ name, (Handle.call (Cadical.traceProof l.handle.opened name)).run
              (Handle.opening l.handle) = (.ok (), (Handle.opening l.handle).withSolver
                  (Handle.tracing l.handle.solver l.handle.opened)) := fun name =>
            Handle.run_call (Handle.run_traceProof (h.truthful.configuring hc) l.handle.opened name)
          refine .inr ⟨rfl, ?_⟩
          -- the events are noted on the way: the file is opened before CaDiCaL is told of it
          have hattach : ∀ name, (ccadicalTraceProof l.handle.opened name).run
              ⟨Handle.opening l.handle, l.events ++ [.opened l.handle.opened]⟩ = (.ok (),
                ⟨(Handle.opening l.handle).withSolver (Handle.tracing l.handle.solver l.handle.opened),
                  started l.events l.handle.opened⟩) := by
            intro name
            rw [ccadicalTraceProof, run_bind, onHandle, run_within, htrace, andThen_ok, run_bind, note,
              run_modify, andThen_ok, Ledger.writes, run_bind, run_read, andThen_ok, note, run_modify]
            change (_, Ledger.mk _ (_ ++ (writable (Handle.tracing _ _)).map _)) = _
            rw [hwritable]
            rfl
          rw [run_require_true, andThen_ok, run_bind, note, run_modify, andThen_ok, run_bind, onHandle,
            run_within, run_modify, andThen_ok, run_bind]
          change andThen ((ccadicalTraceProof l.handle.opened _).run ⟨Handle.opening l.handle, _⟩) _ = _
          rw [hattach]
          rfl
  · exact .inl ⟨_, rfl⟩

/-- An accepted event is one step on. -/
theorem follow_event {es : List Event} {e : Event} {o o' : Owner}
    (hes : Owner.start.follow es = some o) (he : o.advance e = some o') :
    Owner.start.follow (es ++ [e]) = some o' := by
  refine follow_more hes ?_
  rw [Owner.follow, he]
  rfl

/-- What the flags promise does not depend on the log. -/
theorem Owns.truthful_step (h : Owns l) (e : EntryCall) : Truthful (entryStep l e).2.handle := by
  rw [entryStep, (erases_entry e l).2]
  exact h.truthful.step e

theorem Owns.untraced (h : Owns l) (hproof : l.handle.proof = none) : l.handle.proofTraced = false := by
  by_contra htr
  have hsome := h.traced (Bool.eq_true_of_not_eq_false htr)
  rw [hproof] at hsome
  cases hsome

theorem owns_traceProof (h : Owns l) (path : SEXP) (canOpen : Bool) :
    Owns (entryStep l (.traceProof path canOpen)).2 := by
  have htruthful := h.truthful_step (.traceProof path canOpen)
  rw [entryStep, entry, run_bind_pure] at htruthful ⊢
  rcases zusatTraceProof_cases h path canOpen with ⟨t, hrun⟩ | ⟨hproof, hrun⟩
  · rw [hrun]
    exact h
  · have hshut : phase l.handle = .shut := by
      rw [phase, h.untraced hproof, hproof]
      rfl
    rw [hrun] at htruthful ⊢
    refine ⟨htruthful, ?_, ?_, fun _ => rfl, ?_⟩
    · have hstart := h.follows
      rw [hshut] at hstart
      have hopened : Owner.start.follow (l.events ++ [.opened l.handle.opened]) =
          some ⟨l.handle.opened + 1, .idle⟩ := follow_event hstart (if_pos ⟨rfl, rfl⟩)
      have hattached : Owner.start.follow (l.events ++ [.opened l.handle.opened] ++
          [.attached l.handle.opened]) = some ⟨l.handle.opened + 1, .working⟩ :=
        follow_event hopened (if_pos ⟨rfl, rfl⟩)
      exact follow_event hattached (if_pos ⟨rfl, rfl⟩)
    · intro f hf
      obtain rfl := Option.some.inj hf
      rfl
    · change writable (Handle.tracing _ _) = _
      rw [writable_tracing, h.writable, h.untraced hproof]
      rfl

/-! ## Closing it -/

/-- The log once file `f` is closed. -/
def ended (l : Ledger) (f : ℕ) : List Event :=
  (if l.handle.proofTraced then l.events ++ [.used f] ++ [.detached f] else l.events) ++ [.closed f]

/-- The handle once its file is closed. -/
def closed (h : Handle) (c : Cadical) : Handle :=
  { h with solver := c, proof := none, proofTraced := false, fclosed := h.fclosed ++ h.proof.toList }

theorem run_fcloseProof (l : Ledger) : fcloseProof.run l = (.ok (), ⟨closed l.handle l.handle.solver,
    l.events ++ l.handle.proof.toList.map .closed⟩) := rfl

theorem writable_untraced (c : Cadical) : writable (Handle.untraced c) = [] := by
  have hnone : (Handle.untraced c).fileTracers.filter (fun t => !t.closed) = [] := by
    rw [List.filter_eq_nil_iff]
    intro t ht
    obtain ⟨t', -, rfl⟩ := List.mem_map.mp ht
    exact Bool.false_ne_true
  rw [writable, hnone]
  rfl

/-- What closing does, by `zusat_close_proof` as by `zusat_finalize`. -/
theorem run_closing (h : Owns l) {f : ℕ} (hf : l.handle.proof = some f)
    (hv : l.handle.proofTraced = true → l.handle.solver.state.valid = true) :
    ∃ c, (do doIf l.handle.proofTraced ccadicalCloseProof; fcloseProof : LedgerM Unit).run l =
        (.ok (), ⟨closed l.handle c, ended l f⟩) ∧ c.state = l.handle.solver.state ∧ writable c = [] := by
  have hwritable := h.writable
  cases htr : l.handle.proofTraced with
  | false =>
    rw [htr] at hwritable
    refine ⟨l.handle.solver, ?_, rfl, hwritable⟩
    rw [run_bind, run_doIf_false, andThen_ok, run_fcloseProof, ended, htr, hf]
    rfl
  | true =>
    rw [htr, hf] at hwritable
    have hclose : (Handle.call Cadical.closeProofTrace).run l.handle =
        (.ok (), l.handle.withSolver (Handle.untraced l.handle.solver)) :=
      Handle.run_call (Handle.run_closeProofTrace (hv htr) (h.truthful.traced htr))
    have hdetach : ccadicalCloseProof.run l = (.ok (),
        ⟨l.handle.withSolver (Handle.untraced l.handle.solver), l.events ++ [.used f] ++ [.detached f]⟩) := by
      rw [ccadicalCloseProof, run_bind, run_read, andThen_ok, run_bind, onHandle, run_within, hclose,
        andThen_ok, hwritable]
      rfl
    refine ⟨Handle.untraced l.handle.solver, ?_, rfl, writable_untraced _⟩
    rw [run_bind, run_doIf_true, hdetach, andThen_ok, run_fcloseProof, ended, htr]
    change (_, Ledger.mk _ (_ ++ l.handle.proof.toList.map _)) = _
    rw [hf]
    rfl

theorem follow_ended (h : Owns l) {f : ℕ} (hf : l.handle.proof = some f) :
    Owner.start.follow (ended l f) = some ⟨l.handle.opened, .shut⟩ := by
  have hlast := h.latest f hf
  have hstart := h.follows
  rw [ended]
  cases htr : l.handle.proofTraced with
  | false =>
    rw [phase, htr, hf] at hstart
    exact follow_event hstart (if_pos ⟨.inl rfl, hlast⟩)
  | true =>
    rw [phase, htr] at hstart
    have hused : Owner.start.follow (l.events ++ [.used f]) = some ⟨l.handle.opened, .working⟩ :=
      follow_event hstart (if_pos ⟨rfl, hlast⟩)
    have hdetached : Owner.start.follow (l.events ++ [.used f] ++ [.detached f]) =
        some ⟨l.handle.opened, .done⟩ := follow_event hused (if_pos ⟨rfl, hlast⟩)
    exact follow_event hdetached (if_pos ⟨.inr rfl, hlast⟩)

/-- After closing the handle owns nothing. -/
theorem owns_closed (h : Owns l) {f : ℕ} (hf : l.handle.proof = some f) {c : Cadical}
    (hc : c.state = l.handle.solver.state) (hwritable : writable c = []) :
    Owns ⟨closed l.handle c, ended l f⟩ := by
  have ht := h.truthful
  refine ⟨⟨hc ▸ ht.settled, fun h => hc ▸ ht.configuring h, fun h => hc ▸ ht.satisfied h,
    fun h => hc ▸ ht.unsatisfied h, fun h => hc ▸ ht.concludable h, fun h => absurd h nofun⟩,
    follow_ended h hf, fun _ h => absurd h nofun, fun h => absurd h nofun, hwritable⟩

/-- After a search whose result failed a check, CaDiCaL does not close its side any more. -/
theorem run_ccadicalCloseProof_solving (hs : l.handle.solver.state = .solving) :
    ccadicalCloseProof.run l = (.error (Cadical.invalidState "close_proof_trace"), l) := by
  have hrefuse : (Handle.call Cadical.closeProofTrace).run l.handle =
      (.error (Cadical.invalidState "close_proof_trace"), l.handle) :=
    Handle.run_call (Cadical.run_closeProofTrace_solving hs)
  rw [ccadicalCloseProof, run_bind, run_read, andThen_ok, run_bind, onHandle, run_within, hrefuse,
    andThen_error]
  rfl

theorem owns_closeProof (h : Owns l) : Owns (entryStep l .closeProof).2 := by
  rw [entryStep, entry, run_bind_pure, zusatCloseProof, run_bind, run_read, andThen_ok, run_bind]
  cases hproof : l.handle.proof with
  | none => exact h
  | some f =>
    rw [Option.isSome_some, run_require_true, andThen_ok]
    by_cases hstuck : l.handle.solver.state = .solving ∧ l.handle.proofTraced = true
    · obtain ⟨hs, htr⟩ := hstuck
      rw [run_bind, htr, run_doIf_true, run_ccadicalCloseProof_solving hs]
      exact h
    · have hv : l.handle.proofTraced = true → l.handle.solver.state.valid = true := fun htr =>
        h.truthful.settled.resolve_right fun hs => hstuck ⟨hs, htr⟩
      obtain ⟨c, hrun, hc, hwritable⟩ := run_closing h hproof hv
      rw [hrun]
      exact owns_closed h hproof hc hwritable

theorem prefix_ended (l : Ledger) (f : ℕ) : l.events <+: ended l f := by
  rw [ended]
  split
  · exact ((List.prefix_append _ _).trans (List.prefix_append _ _)).trans (List.prefix_append _ _)
  · exact List.prefix_append _ _

/-- The finalizer does not raise in a valid state, and leaves nothing open. -/
theorem run_zusatFinalize (h : Owns l) (hv : l.handle.solver.state.valid = true) : ∃ l', zusatFinalize.run l = (.ok (), l') ∧
    l.events <+: l'.events ∧ Owner.start.follow l'.events = some ⟨l.handle.opened, .shut⟩ := by
  rw [zusatFinalize, run_bind, run_read, andThen_ok, run_bind]
  cases hproof : l.handle.proof with
  | none =>
    have hwrites := h.writes
    rw [phase, h.untraced hproof, hproof] at hwrites
    exact ⟨_, rfl, List.prefix_append _ _, hwrites⟩
  | some f =>
    obtain ⟨c, hrun, hc, hwritable⟩ := run_closing h hproof fun _ => hv
    have hclosed := owns_closed h hproof hc hwritable
    rw [Option.isSome_some, run_doIf_true, hrun, andThen_ok]
    exact ⟨_, rfl, (prefix_ended l f).trans (List.prefix_append _ _), hclosed.writes⟩

theorem Owns.step (h : Owns l) (e : EntryCall) : Owns (entryStep l e).2 := by
  cases e with
  | traceProof path canOpen => exact owns_traceProof h path canOpen
  | closeProof => exact owns_closeProof h
  | addClause | solve | simplify | constrain | reserve | limit | setOption | fixed | value | failed
  | constraintFailed | conclude => exact h.other rfl nofun nofun

end Owned

theorem owns_run (es : List EntryCall) : Owns (run entryStep new es) := by
  refine run_invariant entryStep (P := fun _ _ _ => True) (fun l e hl _ => hl.step e) owns_new ?_
  exact every_of_forall entryStep (fun _ _ _ _ => trivial) new

/-- One is live exactly when the handle has one. -/
theorem Owns.live_iff {l : Ledger} (h : Owns l) :
    (∃ f, Live l.events f) ↔ Handle.zusatTracingProof l.handle = true := by
  have hsums := sums_of_follow h.follows
  rw [Handle.zusatTracingProof]
  constructor
  · rintro ⟨f, hf⟩
    have hphase := (hsums.live_iff.mp hf).1
    by_contra hproof
    have hnone : l.handle.proof = none := Option.not_isSome_iff_eq_none.mp hproof
    rw [phase, h.untraced hnone, hnone] at hphase
    exact hphase rfl
  · intro hproof
    obtain ⟨f, hf⟩ := Option.isSome_iff_exists.mp hproof
    refine ⟨f, hsums.live_iff.mpr ⟨?_, h.latest f hf⟩⟩
    change phase l.handle ≠ .shut
    rw [phase, hproof]
    split <;> decide

/-- Proof files over the life of a handle. The log of any sequence of entry calls is orderly: at most one
file open at any time, used only while it is open, given back by CaDiCaL before it is closed, and never
written to afterwards; and a file is open exactly when the handle says it is tracing. With the finalizer at
the end the log is orderly too, and every file that was opened has been closed once, if the option `check`
is left alone: a search whose result fails its check is left in the middle, and then CaDiCaL does not close
its side. -/
theorem proof_files_owned (es : List EntryCall) :
    (run entryStep new es).handle = run Handle.entryStep Handle.new es ∧
    ((∃ f, Live (run entryStep new es).events f) ↔
      Handle.zusatTracingProof (run Handle.entryStep Handle.new es) = true) ∧
    Orderly (run entryStep new es).events ∧
    ((∀ e ∈ es, ¬Handle.setsOption e "check") →
      ∃ l, zusatFinalize.run (run entryStep new es) = (.ok (), l) ∧
        l.handle = (Handle.zusatFinalize.run (run Handle.entryStep Handle.new es)).2 ∧
        (run entryStep new es).events <+: l.events ∧ Orderly l.events ∧
        ∀ f, l.events.count (.closed f) = l.events.count (.opened f)) := by
  have howns := owns_run es
  have hhandle := handle_run es new
  refine ⟨hhandle, ?_, orderly_of_follow howns.follows, fun hes => ?_⟩
  · rw [howns.live_iff, hhandle]
    rfl
  have hv : (run entryStep new es).handle.solver.state.valid = true := by
    rw [hhandle]
    exact Handle.valid_run hes
  obtain ⟨l, hrun, hbefore, hfollow⟩ := run_zusatFinalize howns hv
  have hfinal := (erases_finalize (run entryStep new es)).2
  rw [hrun, hhandle] at hfinal
  refine ⟨l, hrun, hfinal, hbefore, orderly_of_follow hfollow, fun f => ?_⟩
  · have hsums := sums_of_follow hfollow
    rw [hsums.closed, hsums.opened]
    rfl

/-- A trace that is closed while the solver is still being configured, and a second one that is not closed. -/
def traceTwice : List EntryCall :=
  [.traceProof (.str [some "first"]) true, .closeProof, .traceProof (.str [some "second"]) true,
    .addClause (.int [1])]

theorem proof_files_owned_twice :
    (∀ e ∈ traceTwice, ¬Handle.setsOption e "check") ∧
      ∃ l, zusatFinalize.run (run entryStep new traceTwice) = (.ok (), l) ∧
        l.events.count (.closed 0) = 1 ∧ l.events.count (.closed 1) = 1 := by
  have hes : ∀ e ∈ traceTwice, ¬Handle.setsOption e "check" := by
    simp [traceTwice, Handle.setsOption]
  obtain ⟨-, -, -, hfinal⟩ := proof_files_owned traceTwice
  obtain ⟨l, hrun, -, -, -, hcount⟩ := hfinal hes
  refine ⟨hes, l, hrun, ?_⟩
  obtain rfl : l = (zusatFinalize.run (run entryStep new traceTwice)).2 := by rw [hrun]
  rw [hcount, hcount]
  decide +kernel

end Ledger
end Zusat
