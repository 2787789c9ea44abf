import Zusat.Cardinality.Pairwise
import Zusat.Cardinality.Sequential
import Zusat.Model.Solver

/-! # What every encoder guarantees

`Encodes ls P floor enc` is the contract of an encoder called with the literals `ls` and the floor
`floor`: its clauses mean `P` over the variables up to the floor, and it uses the block from the floor
to its top, all of it, and nothing else above the floor. -/

namespace Zusat
open Foundations
set_option autoImplicit false

/-- The block of auxiliary variables between a floor and a top. -/
def inBlock (floor top v : ℕ) : Prop := floor < v ∧ v ≤ top

structure Encodes (ls : List ℤ) (P : Assignment → Prop) (floor : ℕ) (enc : Encoded) : Prop where
  floor_le : floor ≤ enc.top
  top_le : enc.top ≤ max floor zusatMaxVar
  means : Means (inBlock floor enc.top) enc.clauses P
  lits : ∀ cl ∈ enc.clauses, ∀ l ∈ cl,
    l ≠ 0 ∧ ((∃ x ∈ ls, x.natAbs = l.natAbs) ∨ inBlock floor enc.top l.natAbs)
  uses : ∀ v, inBlock floor enc.top v → ∃ cl ∈ enc.clauses, ∃ l ∈ cl, l.natAbs = v

theorem Encodes.congr {ls ls' : List ℤ} {P P' : Assignment → Prop} {floor : ℕ} {enc : Encoded}
    (h : Encodes ls P floor enc) (hls : ∀ x ∈ ls, ∃ y ∈ ls', y.natAbs = x.natAbs)
    (hP : ∀ α, P α ↔ P' α) : Encodes ls' P' floor enc where
  floor_le := h.floor_le
  top_le := h.top_le
  means := h.means.congr (fun _ => Iff.rfl) hP
  uses := h.uses
  lits := by
    intro cl hcl l hl
    obtain ⟨h0, hcase⟩ := h.lits cl hcl l hl
    refine ⟨h0, hcase.imp_left ?_⟩
    rintro ⟨x, hx, hxl⟩
    obtain ⟨y, hy, hyx⟩ := hls x hx
    exact ⟨y, hy, hyx.trans hxl⟩

/-- An encoding without auxiliary variables. -/
theorem Encodes.of_plain {ls : List ℤ} {P : Assignment → Prop} {floor : ℕ}
    {clauses : List (List ℤ)} (hP : ∀ α, models α clauses = true ↔ P α)
    (hlits : ∀ cl ∈ clauses, ∀ l ∈ cl, l ≠ 0 ∧ ∃ x ∈ ls, x.natAbs = l.natAbs) :
    Encodes ls P floor ⟨clauses, floor⟩ where
  floor_le := le_rfl
  top_le := le_max_left ..
  means := (means_self clauses).congr
    (fun _ => ⟨False.elim, fun h => absurd (Nat.lt_of_lt_of_le h.1 h.2) (Nat.lt_irrefl _)⟩) hP
  lits cl hcl l hl := ⟨(hlits cl hcl l hl).1, .inl (hlits cl hcl l hl).2⟩
  uses _ h := absurd (Nat.lt_of_lt_of_le h.1 h.2) (Nat.lt_irrefl _)

theorem models_units {α : Assignment} {ls : List ℤ} (h : ∀ l ∈ ls, l ≠ 0) :
    models α (ls.map fun l => [-l]) = true ↔ trueCount α ls ≤ 0 := by
  rw [models_map, Nat.le_zero, trueCount, List.countP_eq_zero]
  exact forall_congr' fun l => forall_congr' fun hl => satisfies_not_one (h l hl)

/-! ## The encoders -/

theorem encodeAtMost_spec {ls : List ℤ} {k floor : ℕ} {e : Encoding} {enc : Encoded}
    (hls : ∀ l ∈ ls, l ≠ 0) (hfloor : ∀ l ∈ ls, l.natAbs ≤ floor)
    (h : encodeAtMost ls k e floor = .ok enc) :
    Encodes ls (fun α => trueCount α ls ≤ k) floor enc := by
  rw [encodeAtMost] at h
  by_cases hkn : k ≥ ls.length
  · rw [if_pos hkn] at h
    obtain rfl := Except.ok.inj h
    exact .of_plain (fun α => ⟨fun _ => le_trans (trueCount_le_length α ls) hkn, fun _ => rfl⟩)
      (by simp)
  · rw [if_neg hkn] at h
    by_cases hk0 : k = 0
    · rw [if_pos hk0] at h
      obtain rfl := Except.ok.inj h
      rw [hk0]
      refine .of_plain (fun α => models_units hls) ?_
      simp only [List.mem_map, forall_exists_index, and_imp]
      rintro cl x hx rfl l hl
      rw [List.mem_singleton] at hl
      rw [hl]
      exact ⟨Int.neg_ne_zero.mpr (hls x hx), x, hx, (Int.natAbs_neg x).symm⟩
    · rw [if_neg hk0] at h
      split_ifs at h with hpair hmax
      · obtain rfl := Except.ok.inj h
        refine .of_plain (fun α => encodePairwise_models hls k) fun cl hcl l hl => ?_
        have hx := encodePairwise_lits hcl hl
        exact ⟨Int.neg_ne_zero.mp (hls _ hx), -l, hx, Int.natAbs_neg l⟩
      · obtain rfl := Except.ok.inj h
        have htop : (encodeSequential ls k floor).top = floor + (ls.length - 1) * k := by
          rw [encodeSequential, if_neg hkn, if_neg hk0]
        have hblock : ∀ v, inBlock floor (encodeSequential ls k floor).top v ↔
            counterBlock floor ls.length k v := by
          intro v
          rw [inBlock, counterBlock, htop]
        refine ⟨by omega, by omega, ?_, fun cl hcl l hl => ?_, fun v hv => ?_⟩
        · exact (means_encodeSequential hls hfloor (by omega) (by omega)).congr
            (fun v => (hblock v).symm) (fun _ => Iff.rfl)
        · rcases encodeSequential_lits (by omega) (by omega) hcl hl with hx | ⟨h0, hb⟩
          · exact ⟨Int.neg_ne_zero.mp (hls _ hx), .inl ⟨-l, hx, Int.natAbs_neg l⟩⟩
          · exact ⟨h0, .inr ((hblock _).mpr hb)⟩
        · exact encodeSequential_uses (by omega) (by omega) ((hblock v).mp hv)

theorem encodeAtLeast_spec {ls : List ℤ} {k floor : ℕ} {e : Encoding} {enc : Encoded}
    (hls : ∀ l ∈ ls, l ≠ 0) (hfloor : ∀ l ∈ ls, l.natAbs ≤ floor)
    (h : encodeAtLeast ls k e floor = .ok enc) :
    Encodes ls (fun α => k ≤ trueCount α ls) floor enc := by
  rw [encodeAtLeast] at h
  by_cases hk0 : k = 0
  · rw [if_pos hk0] at h
    obtain rfl := Except.ok.inj h
    exact .of_plain (fun α => ⟨fun _ => by omega, fun _ => rfl⟩) (by simp)
  · rw [if_neg hk0] at h
    by_cases hkn : k > ls.length
    · rw [if_pos hkn] at h
      obtain rfl := Except.ok.inj h
      refine .of_plain (fun α => ?_) (by simp)
      have := trueCount_le_length α ls
      exact ⟨fun hm => Bool.noConfusion hm, fun hc => absurd hc (by omega)⟩
    · rw [if_neg hkn] at h
      have hneg : ∀ l ∈ ls.map (- ·), l ≠ 0 ∧ l.natAbs ≤ floor := by
        intro l hl
        obtain ⟨x, hx, rfl⟩ := List.mem_map.mp hl
        exact ⟨Int.neg_ne_zero.mpr (hls x hx), by rw [Int.natAbs_neg]; exact hfloor x hx⟩
      refine (encodeAtMost_spec (fun l hl => (hneg l hl).1) (fun l hl => (hneg l hl).2) h).congr
        (fun x hx => ?_) (fun α => ?_)
      · obtain ⟨y, hy, rfl⟩ := List.mem_map.mp hx
        exact ⟨y, hy, (Int.natAbs_neg y).symm⟩
      · have := trueCount_map_neg hls α
        omega

/-- Two encodings of conditions on the same literals, the second above the first. -/
theorem Encodes.append {ls : List ℤ} {P Q : Assignment → Prop} {floor : ℕ} {lower upper : Encoded}
    (hl : Encodes ls P floor lower) (hu : Encodes ls Q lower.top upper)
    (hfloor : ∀ l ∈ ls, l.natAbs ≤ floor) (hQ : Ignores Q (inBlock floor lower.top)) :
    Encodes ls (fun α => P α ∧ Q α) floor ⟨lower.clauses ++ upper.clauses, upper.top⟩ where
  floor_le := le_trans hl.floor_le hu.floor_le
  top_le := by
    have := hl.top_le
    have := hu.top_le
    have := hl.floor_le
    show upper.top ≤ max floor zusatMaxVar
    omega
  means := by
    have havoid : Avoids lower.clauses (inBlock lower.top upper.top) := by
      intro cl hcl l hl' hb
      have := hl.floor_le
      rcases (hl.lits cl hcl l hl').2 with ⟨x, hx, hxl⟩ | hb'
      · have := hfloor x hx
        have := hb.1
        omega
      · have := hb.1
        have := hb'.2
        omega
    refine (conservative_append hl.means hu.means havoid hQ).congr (fun v => ?_)
      (fun _ => Iff.rfl)
    have := hl.floor_le
    have := hu.floor_le
    simp only [inBlock]
    omega
  lits := by
    intro cl hcl l hl'
    have h1 := hl.floor_le
    have h2 := hu.floor_le
    rcases List.mem_append.mp hcl with hcl | hcl
    · obtain ⟨h0, hcase⟩ := hl.lits cl hcl l hl'
      exact ⟨h0, hcase.imp_right fun hb => ⟨hb.1, le_trans hb.2 h2⟩⟩
    · obtain ⟨h0, hcase⟩ := hu.lits cl hcl l hl'
      exact ⟨h0, hcase.imp_right fun hb => ⟨lt_of_le_of_lt h1 hb.1, hb.2⟩⟩
  uses := by
    intro v hv
    rcases Nat.lt_or_ge lower.top v with hlt | hge
    · obtain ⟨cl, hcl, hx⟩ := hu.uses v ⟨hlt, hv.2⟩
      exact ⟨cl, List.mem_append_right _ hcl, hx⟩
    · obtain ⟨cl, hcl, hx⟩ := hl.uses v ⟨hv.1, hge⟩
      exact ⟨cl, List.mem_append_left _ hcl, hx⟩

theorem ignores_of_lits {ls : List ℤ} {A : ℕ → Prop} (h : ∀ l ∈ ls, ¬A l.natAbs)
    (P : ℕ → Prop) : Ignores (fun α => P (trueCount α ls)) A := by
  intro α β hαβ hα
  rwa [trueCount_congr fun l hl => hαβ _ (h l hl)]

theorem encodeExactly_ok {ls : List ℤ} {k floor : ℕ} {e : Encoding} {enc : Encoded}
    (h : encodeExactly ls k e floor = .ok enc) :
    ∃ lower upper, encodeAtLeast ls k e floor = .ok lower ∧
      encodeAtMost ls k e lower.top = .ok upper ∧
      enc = ⟨lower.clauses ++ upper.clauses, upper.top⟩ := by
  rw [encodeExactly] at h
  cases hl : encodeAtLeast ls k e floor with
  | error err => rw [hl] at h; cases h
  | ok lower =>
    cases hu : encodeAtMost ls k e lower.top with
    | error err => rw [hl] at h; simp only [bind, Except.bind, hu] at h; cases h
    | ok upper =>
      rw [hl] at h
      simp only [bind, Except.bind, hu] at h
      exact ⟨lower, upper, rfl, hu, (Except.ok.inj h).symm⟩

theorem encodeExactly_spec {ls : List ℤ} {k floor : ℕ} {e : Encoding} {enc : Encoded}
    (hls : ∀ l ∈ ls, l ≠ 0) (hfloor : ∀ l ∈ ls, l.natAbs ≤ floor)
    (h : encodeExactly ls k e floor = .ok enc) :
    Encodes ls (fun α => trueCount α ls = k) floor enc := by
  obtain ⟨lower, upper, hl, hu, rfl⟩ := encodeExactly_ok h
  have hlow := encodeAtLeast_spec hls hfloor hl
  have hup := encodeAtMost_spec hls (fun l hl => le_trans (hfloor l hl) hlow.floor_le) hu
  refine (hlow.append hup hfloor (ignores_of_lits (fun l hl hb => ?_) (· ≤ k))).congr
    (fun x hx => ⟨x, hx, rfl⟩) (fun α => by omega)
  have := hfloor l hl
  have := hb.1
  omega

/-! ## The three bounds together -/

namespace Session

/-- The condition a bound `k` puts on a number of true literals. -/
def Bound.Holds : Bound → ℕ → ℕ → Prop
  | .atMost, count, k => count ≤ k
  | .atLeast, count, k => k ≤ count
  | .exactly, count, k => count = k

theorem Bound.encode_spec (b : Bound) {ls : List ℤ} {k floor : ℕ} {e : Encoding} {enc : Encoded}
    (hls : ∀ l ∈ ls, l ≠ 0) (hfloor : ∀ l ∈ ls, l.natAbs ≤ floor)
    (h : b.encode ls k e floor = .ok enc) :
    Encodes ls (fun α => b.Holds (trueCount α ls) k) floor enc := by
  cases b with
  | atMost => exact encodeAtMost_spec hls hfloor h
  | atLeast => exact encodeAtLeast_spec hls hfloor h
  | exactly => exact encodeExactly_spec hls hfloor h

/-- The clauses mention every literal the bound is about. -/
def Bound.mentions : Bound → ℕ → ℕ → Bool
  | .atMost, n, k => k < n
  | .atLeast, n, k => 0 < k && k ≤ n
  | .exactly, n, k => k ≤ n

end Session

/-- Every literal's variable occurs in a clause. -/
def Mentions (ls : List ℤ) (clauses : List (List ℤ)) : Prop :=
  ∀ l ∈ ls, ∃ cl ∈ clauses, ∃ x ∈ cl, x.natAbs = l.natAbs

theorem mentions_encodeAtMost {ls : List ℤ} {k floor : ℕ} {e : Encoding} {enc : Encoded}
    (hk : k < ls.length) (h : encodeAtMost ls k e floor = .ok enc) : Mentions ls enc.clauses := by
  have hneg : (∀ l ∈ ls, ∃ cl ∈ enc.clauses, -l ∈ cl) → Mentions ls enc.clauses := by
    intro hm l hl
    obtain ⟨cl, hcl, hx⟩ := hm l hl
    exact ⟨cl, hcl, -l, hx, Int.natAbs_neg l⟩
  apply hneg
  rw [encodeAtMost, if_neg (by omega)] at h
  split_ifs at h with hk0 hpair hmax
  · obtain rfl := Except.ok.inj h
    exact fun l hl => ⟨[-l], List.mem_map.mpr ⟨l, hl, rfl⟩, List.mem_singleton.mpr rfl⟩
  · obtain rfl := Except.ok.inj h
    exact fun l hl => encodePairwise_mem hk hl
  · obtain rfl := Except.ok.inj h
    exact fun l hl => encodeSequential_mem (by omega) hk hl

theorem mentions_encodeAtLeast {ls : List ℤ} {k floor : ℕ} {e : Encoding} {enc : Encoded}
    (hk : 0 < k) (hkn : k ≤ ls.length) (h : encodeAtLeast ls k e floor = .ok enc) :
    Mentions ls enc.clauses := by
  rw [encodeAtLeast, if_neg (by omega), if_neg (by omega)] at h
  intro l hl
  have hlen : ls.length - k < (ls.map (- ·)).length := by
    rw [List.length_map]
    omega
  obtain ⟨cl, hcl, x, hx, hxl⟩ := mentions_encodeAtMost hlen h (-l) (List.mem_map_of_mem hl)
  exact ⟨cl, hcl, x, hx, by rw [hxl, Int.natAbs_neg]⟩

theorem Session.Bound.encode_mentions (b : Session.Bound) {ls : List ℤ} {k floor : ℕ}
    {e : Encoding} {enc : Encoded} (hm : b.mentions ls.length k = true)
    (h : b.encode ls k e floor = .ok enc) : Mentions ls enc.clauses := by
  cases b with
  | atMost => exact mentions_encodeAtMost (of_decide_eq_true hm) h
  | atLeast =>
    obtain ⟨h0, hn⟩ := Bool.and_eq_true_iff.mp hm
    exact mentions_encodeAtLeast (of_decide_eq_true h0) (of_decide_eq_true hn) h
  | exactly =>
    have hkn : k ≤ ls.length := of_decide_eq_true hm
    obtain ⟨lower, upper, hl, hu, rfl⟩ := encodeExactly_ok h
    intro l hl'
    -- with `k = 0` the upper half mentions the literals, else the lower one does
    rcases Nat.eq_zero_or_pos k with rfl | hpos
    · have hlen : 0 < ls.length := List.length_pos_of_mem hl'
      obtain ⟨cl, hcl, hx⟩ := mentions_encodeAtMost hlen hu l hl'
      exact ⟨cl, List.mem_append_right _ hcl, hx⟩
    · obtain ⟨cl, hcl, hx⟩ := mentions_encodeAtLeast hpos hkn hl l hl'
      exact ⟨cl, List.mem_append_left _ hcl, hx⟩

/-! ## Only two literals or more need a block -/

theorem encodeAtMost_wide {ls : List ℤ} {k floor : ℕ} {e : Encoding} {enc : Encoded}
    (h : encodeAtMost ls k e floor = .ok enc) (htop : floor < enc.top) : 2 ≤ ls.length := by
  rw [encodeAtMost] at h
  split_ifs at h with hkn hk0 hpair hmax
  · obtain rfl := Except.ok.inj h
    exact absurd htop (Nat.lt_irrefl _)
  · obtain rfl := Except.ok.inj h
    exact absurd htop (Nat.lt_irrefl _)
  · obtain rfl := Except.ok.inj h
    exact absurd htop (Nat.lt_irrefl _)
  · omega

theorem encodeAtLeast_wide {ls : List ℤ} {k floor : ℕ} {e : Encoding} {enc : Encoded}
    (h : encodeAtLeast ls k e floor = .ok enc) (htop : floor < enc.top) : 2 ≤ ls.length := by
  rw [encodeAtLeast] at h
  split_ifs at h with hk0 hkn
  · obtain rfl := Except.ok.inj h
    exact absurd htop (Nat.lt_irrefl _)
  · obtain rfl := Except.ok.inj h
    exact absurd htop (Nat.lt_irrefl _)
  · have := encodeAtMost_wide h htop
    rwa [List.length_map] at this

theorem Session.Bound.encode_wide (b : Session.Bound) {ls : List ℤ} {k floor : ℕ} {e : Encoding}
    {enc : Encoded} (h : b.encode ls k e floor = .ok enc) (htop : floor < enc.top) :
    2 ≤ ls.length := by
  cases b with
  | atMost => exact encodeAtMost_wide h htop
  | atLeast => exact encodeAtLeast_wide h htop
  | exactly =>
    obtain ⟨lower, upper, hl, hu, rfl⟩ := encodeExactly_ok h
    by_cases hlow : floor < lower.top
    · exact encodeAtLeast_wide hl hlow
    · exact encodeAtMost_wide hu (lt_of_le_of_lt (Nat.le_of_not_lt hlow) htop)

/-! ## Exactness -/

/-- The assignment agrees on the variables `1..top`, and satisfies the clauses. -/
def Extends (top : ℕ) (α : Assignment) (clauses : List (List ℤ)) (β : Assignment) : Prop :=
  (∀ v, 1 ≤ v → v ≤ top → β v = α v) ∧ models β clauses = true

/-- Only the variables of the block matter beyond the floor. -/
theorem Encodes.extends_iff {ls : List ℤ} {P : Assignment → Prop} {floor : ℕ} {enc : Encoded}
    (h : Encodes ls P floor enc) (hfloor : ∀ l ∈ ls, l.natAbs ≤ floor) (α : Assignment) :
    (∃ β, Extends floor α enc.clauses β) ↔ P α := by
  rw [← h.means α]
  constructor
  · rintro ⟨β, hβ, hm⟩
    let γ : Assignment := fun v => if floor < v ∧ v ≤ enc.top then β v else α v
    have hγ : models γ enc.clauses = models β enc.clauses := by
      refine models_congr fun cl hcl l hl => ?_
      obtain ⟨h0, ⟨x, hx, hxl⟩ | hb⟩ := h.lits cl hcl l hl
      · have hle := hfloor x hx
        have hout : ¬(floor < l.natAbs ∧ l.natAbs ≤ enc.top) := by omega
        rw [show γ l.natAbs = α l.natAbs from if_neg hout, hβ l.natAbs (by omega) (by omega)]
      · exact if_pos hb
    exact ⟨γ, fun v hv => if_neg hv, hγ.trans hm⟩
  · rintro ⟨β, hβ, hm⟩
    refine ⟨β, fun v _ hv => hβ v fun hb => ?_, hm⟩
    exact absurd hb.1 (Nat.not_lt.mpr hv)

/-- Whatever the bound and the encoding, an assignment of the variables `1..top` extends to one of
`1..top'` that satisfies the clauses exactly when the bound holds of its true literals; so the
encodings admit the same assignments. -/
theorem encodings_exact (b : Session.Bound) (ls : List ℤ) (k : ℕ) (e : Encoding) (top : ℕ)
    (hls : ∀ l ∈ ls, l ≠ 0) (htop : ∀ l ∈ ls, l.natAbs ≤ top) (enc : Encoded)
    (h : b.encode ls k e top = .ok enc) :
    top ≤ enc.top ∧ (∀ cl ∈ enc.clauses, ∀ l ∈ cl, 1 ≤ l.natAbs ∧ l.natAbs ≤ enc.top) ∧
      (∀ α, (∃ β, Extends top α enc.clauses β) ↔ b.Holds (trueCount α ls) k) ∧
      ∀ e' enc', b.encode ls k e' top = .ok enc' → ∀ α,
        (∃ β, Extends top α enc.clauses β) ↔ ∃ β, Extends top α enc'.clauses β := by
  have hspec := b.encode_spec hls htop h
  refine ⟨hspec.floor_le, fun cl hcl l hl => ?_, hspec.extends_iff htop, fun e' enc' h' α => ?_⟩
  · obtain ⟨h0, ⟨x, hx, hxl⟩ | hb⟩ := hspec.lits cl hcl l hl
    · have := htop x hx
      have := hspec.floor_le
      omega
    · have := hb.2
      omega
  · rw [hspec.extends_iff htop α, (b.encode_spec hls htop h').extends_iff htop α]

/-- Two of three literals at most, one of them negative, by the counter. -/
theorem encodings_exact_counter :
    encodeAtMost [1, -2, 3] 2 .sequential 3 = .ok (encodeSequential [1, -2, 3] 2 3) ∧
      ∀ α, (∃ β, Extends 3 α (encodeSequential [1, -2, 3] 2 3).clauses β) ↔
        trueCount α [1, -2, 3] ≤ 2 := by
  have h : Session.Bound.atMost.encode [1, -2, 3] 2 .sequential 3 =
      .ok (encodeSequential [1, -2, 3] 2 3) := rfl
  exact ⟨h, (encodings_exact .atMost [1, -2, 3] 2 .sequential 3 (by decide) (by decide) _ h).2.2.1⟩

end Zusat
