import Zusat.Cardinality.Overflow
import Zusat.Handle.VarLimit
import Zusat.Session.Contract
import Mathlib.Order.Interval.Finset.Nat

/-! # The cardinality functions stay in range

For accepted arguments the programs in R's arithmetic never give `NA`: they are the encoders of the model,
which stop before a counter that would go past the limit, or hand over valid literals only. And no
session goes past the limit of its own accord. -/

namespace Zusat
open Foundations Foundations.Prog
set_option autoImplicit false

namespace Session
open Cadical (Limited)
open Handle (Truthful)

/-! ## The number of variables -/

theorem limited_entrywise : Entrywise (fun h h' => Truthful h ∧ Limited h.solver → Truthful h' ∧ Limited h'.solver)
    (fun _ h h' => Truthful h ∧ Limited h.solver → Truthful h' ∧ Limited h'.solver) where
  law := .of_preorder (fun _ => id) (fun h h' => h' ∘ h)
  stays := fun _ _ => id
  entry := fun e => respects_of_snd fun _ ht => ⟨ht.1.step e, Handle.limited_step ht.1.settled ht.2 e⟩

theorem limited_step {s : Session} (h : Truthful s.handle ∧ Limited s.solver) (c : Call) :
    Truthful (step s c).2.handle ∧ Limited (step s c).2.solver := by
  have htrace := respects_satTraceProof limited_entrywise.through
    (fun nm _ v => limited_entrywise.satSetOption [some nm] v)
    (fun path canOpen => Entrywise.follows_onHandle
      (limited_entrywise.entry (.traceProof path canOpen)).of_bind_pure)
  exact Respects.snd (limited_entrywise.exported c htrace) s h

theorem limited_after (cs : List Call) : Truthful (after cs).handle ∧ Limited (after cs).solver :=
  run_invariant step (I := fun s => Truthful s.handle ∧ Limited s.solver) (P := fun _ _ _ => True)
    (fun _ c h _ => limited_step h c) ⟨Handle.truthful_new, Cadical.limited_init⟩
    (every_of_forall step (fun _ _ _ _ => trivial) new)

/-! ## Accepted arguments -/

/-- Literals over distinct variables are at most as many as there are variables. -/
theorem length_le_of_distinct {ls : List ℤ} (hvalid : ∀ l ∈ ls, ValidLit l)
    (hdistinct : (ls.map Int.natAbs).Nodup) : ls.length ≤ zusatMaxVar := by
  have hsub : (ls.map Int.natAbs).toFinset ⊆ Finset.Icc 1 zusatMaxVar := by
    intro v hv
    obtain ⟨l, hl, rfl⟩ := List.mem_map.mp (List.mem_toFinset.mp hv)
    have hlit := hvalid l hl
    exact Finset.mem_Icc.mpr ⟨Int.natAbs_pos.mpr hlit.1, hlit.2⟩
  have hcard := Finset.card_le_card hsub
  rwa [List.toFinset_card_of_nodup hdistinct, List.length_map, Nat.card_Icc, Nat.add_sub_cancel] at hcard

/-- All clauses that are built, also those of the first half of `sat_exactly` when the second is
refused. -/
def Bound.generated (b : Bound) (ls : List ℤ) (k : ℕ) (e : Encoding) (top : ℕ) : List (List ℤ) :=
  match b, b.encode ls k e top with
  | _, .ok enc => enc.clauses
  | .exactly, .error _ =>
    match encodeAtLeast ls k e top with
    | .ok lower => lower.clauses
    | .error _ => []
  | _, .error _ => []

/-- The clause passes the checks of both layers. -/
def Passes (cl : List ℤ) : Prop := asLiterals "literals" (.ints cl) = .ok cl ∧ Handle.checkLits cl = .ok ()

/-- The clauses and the range to record. -/
def planned (floor : ℕ) (enc : Encoded) : List (List ℤ) × Option (ℤ × ℤ) :=
  (enc.clauses, if floor < enc.top then some ((floor : ℤ) + 1, (enc.top : ℤ)) else none)

section Accepted
variable {ls : List ℤ} {k top : ℕ} {e : Encoding} (hvalid : ∀ l ∈ ls, ValidLit l)
  (hfloor : ∀ l ∈ ls, l.natAbs ≤ top) (htop : top ≤ zusatMaxVar)
include hvalid hfloor htop

theorem passes_encode {b : Bound} {enc : Encoded} (henc : b.encode ls k e top = .ok enc) :
    ∀ cl ∈ enc.clauses, Passes cl := by
  have hspec := b.encode_spec (fun l hl => (hvalid l hl).1) hfloor henc
  intro cl hcl
  have hlits : ∀ l ∈ cl, ValidLit l := by
    intro l hl
    obtain ⟨h0, ⟨x, hx, hxl⟩ | hb⟩ := hspec.lits cl hcl l hl
    · exact ⟨h0, hxl ▸ (hvalid x hx).2⟩
    · have hle := hspec.top_le
      have hlast := hb.2
      exact ⟨h0, by omega⟩
  exact ⟨asLiterals_ints hlits, Handle.checkLits_ok hlits⟩

theorem passes_generated (b : Bound) : ∀ cl ∈ b.generated ls k e top, Passes cl := by
  intro cl hcl
  rw [Bound.generated.eq_def] at hcl
  split at hcl
  · next henc => exact passes_encode hvalid hfloor htop henc cl hcl
  · split at hcl
    · next hlower => exact passes_encode (b := .atLeast) hvalid hfloor htop hlower cl hcl
    · cases hcl
  · cases hcl

theorem addCardinality_eq (hn : ls.length ≤ zusatMaxVar) (b : Bound) {nVars : ℕ}
    (hfl : auxFloor nVars ls = top) : Machine.addCardinality b ls k e nVars =
      some ((b.encode ls k e top).map (planned top)) := by
  rw [Machine.addCardinality, hfl, Machine.encode_eq hn b htop (fun l hl => (hvalid l hl).1) hfloor e]
  cases b.encode ls k e top with
  | error err => rfl
  | ok enc =>
    have hrange : zusatMaxVar + 1 ≤ integerMax := by decide
    have hfirst : (Whole.int top).plus (.int 1) = some (.int ((top : ℤ) + 1)) :=
      Whole.arith_int (f := (· + ·)) (show ((top : ℤ) + 1).natAbs ≤ integerMax by omega)
    change (if (enc.top : ℤ) > (top : ℤ) then _ else _) = some (Except.ok (planned top enc))
    rw [planned]
    by_cases hlt : top < enc.top
    · rw [if_pos (show (enc.top : ℤ) > (top : ℤ) by omega), if_pos hlt, hfirst]
      rfl
    · rw [if_neg (show ¬(enc.top : ℤ) > (top : ℤ) by omega), if_neg hlt]
      rfl

end Accepted

/-- No integer operation of the three cardinality functions overflows: for accepted arguments, every
encoding and every solver within the limit, the program in R's arithmetic runs to its end and gives what
the encoder of the model gives. When it stops, it needs variables beyond the limit; whatever it has built
passes the checks of both layers. And in every reachable state in which `factor` is off, the number of
variables is within the limit. -/
theorem cardinality_in_range :
    (∀ (b : Bound) (literals k : RValue) (ls : List ℤ) (n : ℕ) (e : Encoding) (nVars : ℕ),
      asLiterals "literals" literals = .ok ls → checkDistinct "literals" ls = .ok ls →
      checkBound k = .ok n → nVars ≤ zusatMaxVar →
      Machine.addCardinality b ls n e nVars =
        some ((b.encode ls n e (auxFloor nVars ls)).map (planned (auxFloor nVars ls))) ∧
      (∀ err, b.encode ls n e (auxFloor nVars ls) = .error err →
        ∃ needed, zusatMaxVar < needed ∧ err = needsVariables needed) ∧
      ∀ cl ∈ b.generated ls n e (auxFloor nVars ls), Passes cl) ∧
    ∀ (cs : List Call) (m : ℕ), (after cs).solver.opts "factor" = 0 →
      (satNVars.run (after cs)).1 = .ok m → m ≤ zusatMaxVar := by
  refine ⟨fun b literals k ls n e nVars hlits hdistinct _ hvars => ?_, fun cs m hoff hm => ?_⟩
  · have hvalid := asLiterals_valid hlits
    have hfloor : ∀ l ∈ ls, l.natAbs ≤ auxFloor nVars ls := natAbs_le_auxFloor nVars
    have htop : auxFloor nVars ls ≤ zusatMaxVar := max_le hvars (topVar_le fun l hl => (hvalid l hl).2)
    have hn := length_le_of_distinct hvalid (checkDistinct_nodup hdistinct)
    exact ⟨addCardinality_eq hvalid hfloor htop hn b rfl, fun _ => b.encode_needs,
      passes_generated hvalid hfloor htop b⟩
  · obtain ⟨htruthful, hlimited⟩ := limited_after cs
    rw [satNVars, run_zusatNVars htruthful.settled] at hm
    obtain rfl := Except.ok.inj hm
    exact hlimited.factorOff hoff

/-- Two of three literals at most, by the counter above five variables. -/
theorem cardinality_in_range_counter :
    Machine.addCardinality .atMost [1, -2, 3] 2 .sequential 5 =
      some (.ok ((encodeSequential [1, -2, 3] 2 5).clauses, some (6, 9))) ∧
    ∀ m, (satNVars.run (after [])).1 = .ok m → m ≤ zusatMaxVar := by
  have hlits : asLiterals "literals" (.ints [1, -2, 3]) = .ok [1, -2, 3] :=
    asLiterals_ints (by decide)
  have hbound : checkBound (.num [.fin ⟨2, 1, by decide, by decide⟩]) = .ok 2 := by decide
  refine ⟨?_, fun m => cardinality_in_range.2 [] m (by decide)⟩
  rw [(cardinality_in_range.1 .atMost _ _ _ _ .sequential 5 hlits rfl hbound (by decide)).1]
  rfl

end Session
end Zusat
