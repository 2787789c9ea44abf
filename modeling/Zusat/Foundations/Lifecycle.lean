import Mathlib.Data.List.Induction
import Mathlib.Tactic.Common

/-! # Resources held one at a time

An owner opens numbered resources, hands each to a user at most once, takes it back and closes it.
`advance` is the order in which this may happen; a log it accepts (`follow`) has at most one resource open
at any point, closes none twice, and uses none before it is open or after it is closed. -/

namespace Foundations
set_option autoImplicit false

/-- What happens to resource `r`. -/
inductive Event where
  | opened (r : ℕ)
  | attached (r : ℕ)
  | used (r : ℕ)
  | detached (r : ℕ)
  | closed (r : ℕ)
  deriving DecidableEq, Repr

/-- Where the latest resource stands. -/
inductive Phase where
  | shut
  | idle
  | working
  | done
  deriving DecidableEq, Repr

/-- The number of resources opened so far, and the phase of the latest. -/
structure Owner where
  count : ℕ
  phase : Phase
  deriving DecidableEq, Repr

namespace Owner

def start : Owner := ⟨0, .shut⟩

/-- The order of events. -/
def advance (o : Owner) : Event → Option Owner
  | .opened r => if o.phase = .shut ∧ r = o.count then some ⟨o.count + 1, .idle⟩ else none
  | .attached r => if o.phase = .idle ∧ r + 1 = o.count then some { o with phase := .working } else none
  | .used r => if o.phase = .working ∧ r + 1 = o.count then some o else none
  | .detached r => if o.phase = .working ∧ r + 1 = o.count then some { o with phase := .done } else none
  | .closed r =>
    if (o.phase = .idle ∨ o.phase = .done) ∧ r + 1 = o.count then some { o with phase := .shut }
    else none

def follow (o : Owner) : List Event → Option Owner
  | [] => some o
  | e :: es => (o.advance e).bind fun o' => o'.follow es

theorem follow_append (o : Owner) (es fs : List Event) :
    o.follow (es ++ fs) = (o.follow es).bind fun o' => o'.follow fs := by
  induction es generalizing o with
  | nil => rfl
  | cons e es ih =>
    rw [List.cons_append, follow, follow, Option.bind_assoc]
    congr 1
    funext o'
    exact ih o'

/-- What one more event does. -/
theorem follow_snoc {o o' : Owner} {es : List Event} {e : Event} (h : o.follow (es ++ [e]) = some o') :
    ∃ m, o.follow es = some m ∧ m.advance e = some o' := by
  rw [follow_append] at h
  obtain ⟨m, hm, he⟩ := Option.bind_eq_some_iff.mp h
  refine ⟨m, hm, ?_⟩
  rw [follow] at he
  obtain ⟨m', hm', heq⟩ := Option.bind_eq_some_iff.mp he
  rw [hm']
  exact heq

/-- An event opens one resource more, or concerns the one that is open. -/
theorem advance_count {o o' : Owner} {e : Event} (h : o.advance e = some o') :
    o'.count = o.count + 1 ∨ (o.phase ≠ .shut ∧ o'.count = o.count) := by
  cases e with
  | opened r =>
    rw [advance] at h
    split at h
    · obtain rfl := Option.some.inj h
      exact .inl rfl
    · cases h
  | attached r | used r | detached r =>
    rw [advance] at h
    split at h
    · next hp =>
      obtain rfl := Option.some.inj h
      exact .inr ⟨by rw [hp.1]; decide, rfl⟩
    · cases h
  | closed r =>
    rw [advance] at h
    split at h
    · next hp =>
      obtain rfl := Option.some.inj h
      exact .inr ⟨by rcases hp.1 with hp | hp <;> rw [hp] <;> decide, rfl⟩
    · cases h

end Owner

/-- Resource `r` has been opened and not closed. -/
def Live (es : List Event) (r : ℕ) : Prop := .opened r ∈ es ∧ .closed r ∉ es

/-- How many resources have been closed when the owner is in this state. -/
def Owner.finished (o : Owner) : ℕ := if o.phase = .shut then o.count else o.count - 1

/-- The state of the owner sums the log up. -/
structure Sums (es : List Event) (o : Owner) : Prop where
  pos : o.phase ≠ .shut → 0 < o.count
  opened : ∀ r, es.count (.opened r) = if r < o.count then 1 else 0
  closed : ∀ r, es.count (.closed r) = if r < o.finished then 1 else 0
  attached : ∀ r, .attached r ∈ es → .detached r ∈ es ∨ (o.phase = .working ∧ r + 1 = o.count)

theorem sums_nil : Sums [] Owner.start where
  pos := fun h => absurd rfl h
  opened := fun r => by simp [Owner.start]
  closed := fun r => by simp [Owner.start, Owner.finished]
  attached := fun r h => nomatch h

theorem count_snoc_ne {e x : Event} (es : List Event) (h : e ≠ x) :
    (es ++ [e]).count x = es.count x := by
  rw [List.count_append, List.count_singleton, if_neg (by simpa using h), Nat.add_zero]

/-- An event the owner does not count, in the same place. -/
theorem Sums.keep {es : List Event} {o o' : Owner} {e : Event} (h : Sums es o)
    (hcount : o'.count = o.count) (hphase : o.phase ≠ .shut) (hphase' : o'.phase ≠ .shut)
    (hopen : ∀ r, e ≠ .opened r) (hclose : ∀ r, e ≠ .closed r)
    (hattached : ∀ r, .attached r ∈ es ++ [e] →
      .detached r ∈ es ++ [e] ∨ (o'.phase = .working ∧ r + 1 = o'.count)) : Sums (es ++ [e]) o' where
  pos := fun _ => by rw [hcount]; exact h.pos hphase
  opened := fun r => by rw [count_snoc_ne es (hopen r), h.opened r, hcount]
  closed := fun r => by
    rw [count_snoc_ne es (hclose r), h.closed r, Owner.finished, Owner.finished, if_neg hphase,
      if_neg hphase', hcount]
  attached := hattached

theorem Sums.advance {es : List Event} {o o' : Owner} {e : Event} (h : Sums es o)
    (hstep : o.advance e = some o') : Sums (es ++ [e]) o' := by
  cases e with
  | opened r =>
    rw [Owner.advance] at hstep
    split at hstep
    · next hshut =>
      obtain ⟨hphase, rfl⟩ := hshut
      obtain rfl := Option.some.inj hstep
      refine ⟨fun _ => Nat.succ_pos _, fun r => ?_, fun r => ?_, fun r hr => ?_⟩
      · rw [List.count_append, h.opened r, List.count_singleton]
        simp only [beq_iff_eq, Event.opened.injEq]
        split_ifs <;> omega
      · rw [count_snoc_ne es (by simp), h.closed r, Owner.finished, if_pos hphase]
        rfl
      · simp only [List.mem_append, List.mem_singleton, reduceCtorEq, or_false] at hr ⊢
        rcases h.attached r hr with hd | ⟨hw, -⟩
        · exact .inl hd
        · rw [hphase] at hw
          cases hw
    · cases hstep
  | attached r =>
    rw [Owner.advance] at hstep
    split at hstep
    · next hidle =>
      obtain rfl := Option.some.inj hstep
      refine h.keep rfl (by rw [hidle.1]; decide) (by simp) (by simp) (by simp) fun q hq => ?_
      simp only [List.mem_append, List.mem_singleton, Event.attached.injEq, reduceCtorEq,
        or_false] at hq ⊢
      rcases hq with hq | rfl
      · rcases h.attached q hq with hd | ⟨hw, -⟩
        · exact .inl hd
        · rw [hidle.1] at hw
          cases hw
      · exact .inr ⟨trivial, hidle.2⟩
    · cases hstep
  | used r =>
    rw [Owner.advance] at hstep
    split at hstep
    · next hw =>
      obtain rfl := Option.some.inj hstep
      have hne : o.phase ≠ .shut := by rw [hw.1]; decide
      refine h.keep rfl hne hne (by simp) (by simp) fun q hq => ?_
      simp only [List.mem_append, List.mem_singleton, reduceCtorEq, or_false] at hq ⊢
      exact h.attached q hq
    · cases hstep
  | detached r =>
    rw [Owner.advance] at hstep
    split at hstep
    · next hw =>
      obtain rfl := Option.some.inj hstep
      refine h.keep rfl (by rw [hw.1]; decide) (by simp) (by simp) (by simp) fun q hq => ?_
      simp only [List.mem_append, List.mem_singleton, Event.detached.injEq, reduceCtorEq,
        or_false] at hq ⊢
      rcases h.attached q hq with hd | ⟨-, hq'⟩
      · exact .inl (.inl hd)
      · exact .inl (.inr (by omega))
    · cases hstep
  | closed r =>
    rw [Owner.advance] at hstep
    split at hstep
    · next hready =>
      obtain ⟨hphase, hr⟩ := hready
      obtain rfl := Option.some.inj hstep
      have hne : o.phase ≠ .shut := by rcases hphase with hp | hp <;> rw [hp] <;> decide
      refine ⟨fun hs => absurd rfl hs, fun q => ?_, fun q => ?_, fun q hq => ?_⟩
      · rw [count_snoc_ne es (by simp), h.opened q]
      · rw [List.count_append, h.closed q, List.count_singleton, Owner.finished, if_neg hne,
          Owner.finished, if_pos rfl]
        simp only [beq_iff_eq, Event.closed.injEq]
        split_ifs <;> omega
      · simp only [List.mem_append, List.mem_singleton, reduceCtorEq, or_false] at hq ⊢
        rcases h.attached q hq with hd | ⟨hw, -⟩
        · exact .inl hd
        · rw [hw] at hphase
          rcases hphase with hp | hp <;> cases hp
    · cases hstep

theorem sums_of_follow {es : List Event} {o : Owner} (h : Owner.start.follow es = some o) :
    Sums es o := by
  induction es using List.reverseRecOn generalizing o with
  | nil =>
    obtain rfl := Option.some.inj h
    exact sums_nil
  | append_singleton es e ih =>
    obtain ⟨m, hm, he⟩ := Owner.follow_snoc h
    exact (ih hm).advance he

theorem Sums.live_iff {es : List Event} {o : Owner} (h : Sums es o) {r : ℕ} :
    Live es r ↔ o.phase ≠ .shut ∧ r + 1 = o.count := by
  rw [Live, ← List.count_pos_iff, ← List.count_eq_zero, h.opened, h.closed, Owner.finished]
  have hpos := h.pos
  by_cases hshut : o.phase = .shut
  · rw [if_pos hshut]
    split_ifs <;> simp_all
  · rw [if_neg hshut]
    have hpos := hpos hshut
    constructor
    · rintro ⟨h1, h2⟩
      refine ⟨hshut, ?_⟩
      split_ifs at h1 h2 <;> omega
    · rintro ⟨-, hr⟩
      rw [if_pos (by omega), if_neg (by omega)]
      exact ⟨Nat.one_pos, rfl⟩

/-- From any state on, a resource is used only if it is open now or still to be opened. -/
theorem used_of_follow {o o' : Owner} {es : List Event} (h : o.follow es = some o') {r : ℕ}
    (hr : .used r ∈ es) : (o.phase ≠ .shut ∧ r + 1 = o.count) ∨ o.count ≤ r := by
  induction es generalizing o with
  | nil => cases hr
  | cons e es ih =>
    rw [Owner.follow] at h
    obtain ⟨m, hm, hes⟩ := Option.bind_eq_some_iff.mp h
    rcases List.mem_cons.mp hr with rfl | hr
    · rw [Owner.advance] at hm
      split at hm
      · next hw => exact .inl ⟨by rw [hw.1]; decide, hw.2⟩
      · cases hm
    · have hlater : r + 1 = m.count ∨ m.count ≤ r := (ih hes hr).imp_left And.right
      rcases Owner.advance_count hm with hcount | ⟨hne, hcount⟩
      · exact .inr (by omega)
      · rw [hcount] at hlater
        exact hlater.imp_left fun h => ⟨hne, h⟩

/-- What an accepted log guarantees. -/
structure Orderly (es : List Event) : Prop where
  /-- At any point at most one resource is open. -/
  one : ∀ p, p <+: es → ∀ r q, Live p r → Live p q → r = q
  opened_once : ∀ r, es.count (.opened r) ≤ 1
  closed_once : ∀ r, es.count (.closed r) ≤ es.count (.opened r)
  /-- A resource is open when it is used. -/
  used_live : ∀ before rest r, es = before ++ .used r :: rest → Live before r
  /-- It is taken back from its user before it is closed, and never used again. -/
  closed_last : ∀ before rest r, es = before ++ .closed r :: rest →
    (.attached r ∈ before → .detached r ∈ before) ∧ .used r ∉ rest

theorem orderly_of_follow {es : List Event} {o : Owner} (h : Owner.start.follow es = some o) :
    Orderly es := by
  have hsums := sums_of_follow h
  have hsplit : ∀ before rest e, es = before ++ e :: rest → ∃ m m', Sums before m ∧
      m.advance e = some m' ∧ m'.follow rest = some o := by
    rintro before rest e rfl
    rw [Owner.follow_append] at h
    obtain ⟨m, hm, hrest⟩ := Option.bind_eq_some_iff.mp h
    obtain ⟨m', hm', hrest⟩ := Option.bind_eq_some_iff.mp hrest
    exact ⟨m, m', sums_of_follow hm, hm', hrest⟩
  refine ⟨fun p hp r q hr hq => ?_, fun r => ?_, fun r => ?_, fun before rest r hes => ?_,
    fun before rest r hes => ?_⟩
  · obtain ⟨rest, rfl⟩ := hp
    rw [Owner.follow_append] at h
    obtain ⟨m, hm, -⟩ := Option.bind_eq_some_iff.mp h
    have hr := ((sums_of_follow hm).live_iff.mp hr).2
    have hq := ((sums_of_follow hm).live_iff.mp hq).2
    omega
  · rw [hsums.opened]
    split <;> omega
  · rw [hsums.opened, hsums.closed, Owner.finished]
    split_ifs <;> omega
  · obtain ⟨m, m', hm, hstep, -⟩ := hsplit before rest _ hes
    rw [Owner.advance] at hstep
    split at hstep
    · next hw => exact hm.live_iff.mpr ⟨by rw [hw.1]; decide, hw.2⟩
    · cases hstep
  · obtain ⟨m, m', hm, hstep, hrest⟩ := hsplit before rest _ hes
    rw [Owner.advance] at hstep
    split at hstep
    · next hready =>
      obtain rfl := Option.some.inj hstep
      refine ⟨fun hatt => ?_, fun hused => ?_⟩
      · rcases hm.attached r hatt with hd | ⟨hw, -⟩
        · exact hd
        · rw [hw] at hready
          rcases hready.1 with hp | hp <;> cases hp
      · rcases used_of_follow hrest hused with ⟨hopen, -⟩ | hle
        · exact hopen rfl
        · have hr := hready.2
          change m.count ≤ r at hle
          omega
    · cases hstep

end Foundations
