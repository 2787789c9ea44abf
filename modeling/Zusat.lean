import Zusat.Foundations.Prog
import Zusat.Foundations.Reconstruction
import Zusat.Foundations.Redundancy
import Zusat.Foundations.Runs
import Zusat.Foundations.Cnf
import Zusat.Foundations.Propagation
import Zusat.Foundations.Bisect
import Zusat.Foundations.Buckets
import Zusat.Model.Values
import Zusat.Model.OptionTable
import Zusat.Model.Cadical
import Zusat.Model.Limits
import Zusat.Model.LratChecker
import Zusat.Model.Handle
import Zusat.Model.EntryPoints
import Zusat.Model.Ledger
import Zusat.Model.Encoders
import Zusat.Model.Solver
import Zusat.Model.Enumerate
import Zusat.Model.Calls
import Zusat.Model.Dimacs
import Zusat.Model.Extension
import Zusat.Model.Arithmetic
import Zusat.Cardinality.Pairwise
import Zusat.Cardinality.Sequential
import Zusat.Cardinality.Encoders
import Zusat.Cardinality.Shape
import Zusat.Cardinality.Propagation
import Zusat.Cardinality.Overflow
import Zusat.Cadical.Effects
import Zusat.Cadical.Literals
import Zusat.Cadical.Evolves
import Zusat.Handle.Effects
import Zusat.Handle.Clauses
import Zusat.Handle.Calls
import Zusat.Handle.Mirror
import Zusat.Handle.OneShot
import Zusat.Handle.Evolves
import Zusat.Handle.Flags
import Zusat.Handle.Ownership
import Zusat.Handle.VarLimit
import Zusat.Handle.Errors
import Zusat.Session.Ranges
import Zusat.Session.Solving
import Zusat.Session.Reports
import Zusat.Session.Rounds
import Zusat.Session.Effects
import Zusat.Session.Cardinality
import Zusat.Session.Entries
import Zusat.Session.Reaches
import Zusat.Session.Evolves
import Zusat.Session.Invariants
import Zusat.Session.Named
import Zusat.Session.Refusals
import Zusat.Session.Atomic
import Zusat.Session.Auxiliaries
import Zusat.Session.Meaning
import Zusat.Session.Reserved
import Zusat.Foundations.Listing
import Zusat.Foundations.Splitting
import Zusat.Foundations.Lifecycle
import Zusat.Session.Holding
import Zusat.Session.Outcome
import Zusat.Session.Termination
import Zusat.Session.Resuming
import Zusat.Session.Solutions
import Zusat.Session.Contract
import Zusat.Session.Tracing
import Zusat.Session.Overflow
import Zusat.Session.Awaiting
import Zusat.Session.Conservative
import Zusat.Session.Answers
import Zusat.Session.Cores
import Zusat.Session.Limits
import Zusat.Dimacs.Reading
import Zusat.Dimacs.Grammar
import Zusat.Dimacs.RoundTrip
import Zusat.Lrat.Marks
import Zusat.Lrat.Checks
import Zusat.Lrat.Calls
import Zusat.Lrat.Soundness
import Zusat.Lrat.Entries
import Zusat.Extension.Stack
import Zusat.Extension.Runs
import Zusat.Foundations.Varint
import Zusat.Model.DratTracer
import Zusat.Drat.Tracer
import Zusat.Drat.RoundTrip
import Zusat.Model.Checker
import Zusat.Checker.Runs
