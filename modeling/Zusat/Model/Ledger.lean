import Zusat.Foundations.Lifecycle
import Zusat.Model.EntryPoints

/-! # The entry points with what they do to files

The same programs as in `zusat.c`, over a handle with a log beside it: `fopen` and `fclose`, the tracer
CaDiCaL connects to a file and closes, and what it writes. A tracer writes only while it is not closed, so
every call that enters CaDiCaL is taken to write to all tracers that are not. -/

namespace Zusat
open Foundations Foundations.Prog
set_option autoImplicit false

structure Ledger where
  handle : Handle
  events : List Event

abbrev LedgerM := Prog Ledger RError

namespace Ledger

def new : Ledger := ⟨Handle.new, []⟩

def withHandle (l : Ledger) (h : Handle) : Ledger := { l with handle := h }

def onHandle {α : Type} (m : HandleM α) : LedgerM α := within Ledger.handle withHandle m

def note (es : List Event) : LedgerM Unit := modify fun l => { l with events := l.events ++ es }

/-- The files of the tracers that are not closed. -/
def writable (c : Cadical) : List ℕ := (c.fileTracers.filter fun t => !t.closed).map Tracer.file

/-- CaDiCaL writes whatever it can. -/
def writes : LedgerM Unit := do
  let l ← read
  note ((writable l.handle.solver).map .used)

/-- `ccadical_trace_proof`: a tracer is connected and may write at once. -/
def ccadicalTraceProof (file : ℕ) (name : String) : LedgerM Unit := do
  onHandle (Handle.call (Cadical.traceProof file name))
  note [.attached file]
  writes

/-- `ccadical_close_proof`: every tracer that is not closed writes what it holds back and closes. -/
def ccadicalCloseProof : LedgerM Unit := do
  let l ← read
  onHandle (Handle.call Cadical.closeProofTrace)
  note ((writable l.handle.solver).map .used)
  note ((writable l.handle.solver).map .detached)

/-- `fclose` on the file of the handle, which then has none. -/
def fcloseProof : LedgerM Unit := do
  let l ← read
  note (l.handle.proof.toList.map .closed)
  onHandle (modify fun h => { h with fclosed := h.fclosed ++ h.proof.toList, proof := none,
                                     proofTraced := false })

/-- `zusat_trace_proof`. -/
def zusatTraceProof (path : SEXP) (canOpen : Bool) : LedgerM Unit := do
  let file ← ofExcept (match path with
    | .str [p] => .ok (p.getD "NA")
    | _ => .error (.stop "proof path must be a single string"))
  let l ← read
  require l.handle.proof.isNone (.stop "this solver is already tracing a proof")
  require l.handle.configuring (.stop ("start tracing before adding clauses or solving: CaDiCaL " ++
    "can only trace a complete proof from a freshly created solver"))
  require canOpen (.stop s!"could not open '{file}' for writing")
  note [.opened l.handle.opened]
  onHandle (modify fun h => { h with proof := some h.opened, proofTraced := false,
                                     opened := h.opened + 1 })
  ccadicalTraceProof l.handle.opened file
  onHandle (modify fun h => { h with proofTraced := true })

/-- `zusat_close_proof`. -/
def zusatCloseProof : LedgerM Unit := do
  let l ← read
  require l.handle.proof.isSome (.stop "this solver is not tracing a proof")
  doIf l.handle.proofTraced ccadicalCloseProof
  fcloseProof

/-- `zusat_finalize`: the proof, then the solver with all its tracers. -/
def zusatFinalize : LedgerM Unit := do
  let l ← read
  doIf l.handle.proof.isSome do
    doIf l.handle.proofTraced ccadicalCloseProof
    fcloseProof
  writes

/-- The entry point a call names. -/
def entry : EntryCall → LedgerM EntryResult
  | .traceProof path canOpen => do zusatTraceProof path canOpen; pure .nil
  | .closeProof => do zusatCloseProof; pure .nil
  | e => do
    writes
    onHandle (Handle.entry e)

def entryStep (l : Ledger) (e : EntryCall) : Except RError EntryResult × Ledger := (entry e).run l

end Ledger
end Zusat
