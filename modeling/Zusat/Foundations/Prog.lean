import Mathlib.Order.Basic
import Mathlib.Tactic.Common

/-! # Programs that keep their state across errors

`Prog σ ε α` is a computation over a state `σ` that returns an `α` or raises an `ε`. Unlike a
transaction, a raised error does not undo anything: whatever was written before the error stays
written (the reading of `longjmp`, where the caller regains control and the heap is as it was left).

* `andThen` is sequencing on outcomes, so that `run_bind` turns a `do` block into rewriting.
* `Moves R E m`: from every state, `m` either returns along the relation `R` or raises along `E`.
  This composes over `bind`, branches and loops; `Respects R m` is the case in which both ends of
  the program move along one relation.
* `Raises P m s`: run from `s`, `m` raises no error other than one in `P`. The state is carried along, so
  that a check made earlier in the program can rule out an error later.
* `within` runs a program on a part of the state.
-/

namespace Foundations
set_option autoImplicit false

/-- A computation over `σ` that returns an `α` or raises an `ε`, leaving a state in both cases. -/
structure Prog (σ ε α : Type) where
  run : σ → Except ε α × σ

namespace Prog

variable {σ τ ε α β : Type}

/-- Continue with `f` after a returned value; an error passes through with its state. -/
def andThen (r : Except ε α × σ) (f : α → Prog σ ε β) : Except ε β × σ :=
  match r with
  | (.ok a, s) => (f a).run s
  | (.error e, s) => (.error e, s)

instance : Monad (Prog σ ε) where
  pure a := ⟨fun s => (.ok a, s)⟩
  bind m f := ⟨fun s => andThen (m.run s) f⟩

@[simp] theorem andThen_ok (a : α) (s : σ) (f : α → Prog σ ε β) :
    andThen (.ok a, s) f = (f a).run s := rfl

@[simp] theorem andThen_error (e : ε) (s : σ) (f : α → Prog σ ε β) :
    andThen (.error e, s) f = (.error e, s) := rfl

@[simp] theorem run_pure (a : α) (s : σ) : (pure a : Prog σ ε α).run s = (.ok a, s) := rfl

@[simp] theorem run_bind (m : Prog σ ε α) (f : α → Prog σ ε β) (s : σ) :
    (m >>= f).run s = andThen (m.run s) f := rfl

/-- Two continuations that agree wherever the first program can end. -/
theorem run_bind_congr {m : Prog σ ε α} {f g : α → Prog σ ε β} {s : σ}
    (h : ∀ a s', m.run s = (.ok a, s') → (f a).run s' = (g a).run s') :
    (m >>= f).run s = (m >>= g).run s := by
  rw [run_bind, run_bind]
  rcases hm : m.run s with ⟨r, s'⟩
  cases r with
  | ok a => exact h a s' hm
  | error e => rfl

/-! ## Primitive programs -/

/-- Raise an error, leaving the state as it is. -/
def raise (e : ε) : Prog σ ε α := ⟨fun s => (.error e, s)⟩

/-- Read the state. -/
def read : Prog σ ε σ := ⟨fun s => (.ok s, s)⟩

/-- Change the state. -/
def modify (f : σ → σ) : Prog σ ε Unit := ⟨fun s => (.ok (), f s)⟩

/-- Raise `e` unless the condition holds. -/
def require (b : Bool) (e : ε) : Prog σ ε Unit := if b then pure () else raise e

/-- Run a program only under a condition. -/
def doIf (b : Bool) (m : Prog σ ε Unit) : Prog σ ε Unit := if b then m else pure ()

/-- A pure computation that may fail, run as a program. -/
def ofExcept : Except ε α → Prog σ ε α
  | .ok a => pure a
  | .error e => raise e

/-- Run a program on a part of the state. -/
def within (get : σ → τ) (put : σ → τ → σ) (m : Prog τ ε α) : Prog σ ε α :=
  ⟨fun s => ((m.run (get s)).1, put s (m.run (get s)).2)⟩

/-- Run `h` when `m` raises, then raise again (an exit handler). An error raised by `h` replaces
the first one. -/
def onError (m : Prog σ ε α) (h : Prog σ ε Unit) : Prog σ ε α := ⟨fun s =>
  match m.run s with
  | (.ok a, s') => (.ok a, s')
  | (.error e, s') => (h >>= fun _ => raise e).run s'⟩

/-- Run a program on each element in turn. -/
def each (f : α → Prog σ ε Unit) : List α → Prog σ ε Unit
  | [] => pure ()
  | x :: xs => do
    f x
    each f xs

/-- Run a program on each element in turn and collect what it returns. -/
def collect (f : α → Prog σ ε β) : List α → Prog σ ε (List β)
  | [] => pure []
  | x :: xs => do
    let y ← f x
    let ys ← collect f xs
    pure (y :: ys)

@[simp] theorem run_read (s : σ) : (read : Prog σ ε σ).run s = (.ok s, s) := rfl

@[simp] theorem run_modify (f : σ → σ) (s : σ) :
    (modify f : Prog σ ε Unit).run s = (.ok (), f s) := rfl

@[simp] theorem run_require_true (e : ε) (s : σ) :
    (require true e : Prog σ ε Unit).run s = (.ok (), s) := rfl

@[simp] theorem run_require_false (e : ε) (s : σ) :
    (require false e : Prog σ ε Unit).run s = (.error e, s) := rfl

@[simp] theorem run_doIf_true (m : Prog σ ε Unit) (s : σ) : (doIf true m).run s = m.run s := rfl

@[simp] theorem run_doIf_false (m : Prog σ ε Unit) (s : σ) :
    (doIf false m).run s = (.ok (), s) := rfl

@[simp] theorem run_ofExcept_ok (a : α) (s : σ) :
    (ofExcept (.ok a) : Prog σ ε α).run s = (.ok a, s) := rfl

@[simp] theorem run_ofExcept_error (e : ε) (s : σ) :
    (ofExcept (.error e) : Prog σ ε α).run s = (.error e, s) := rfl

@[simp] theorem run_within (get : σ → τ) (put : σ → τ → σ) (m : Prog τ ε α) (s : σ) :
    (within get put m).run s = ((m.run (get s)).1, put s (m.run (get s)).2) := rfl

@[simp] theorem run_each_nil (f : α → Prog σ ε Unit) (s : σ) :
    (each f []).run s = (.ok (), s) := rfl

theorem run_each_cons (f : α → Prog σ ε Unit) (x : α) (xs : List α) (s : σ) :
    (each f (x :: xs)).run s = andThen ((f x).run s) (fun _ => each f xs) := rfl

/-! ## Pure computations that may fail -/

theorem except_bind_ok {x : Except ε α} {f : α → Except ε β} {b : β} :
    (x >>= f) = .ok b ↔ ∃ a, x = .ok a ∧ f a = .ok b := by
  cases x with
  | error e => exact ⟨nofun, by rintro ⟨a, h, -⟩; cases h⟩
  | ok a => exact ⟨fun h => ⟨a, rfl, h⟩, by rintro ⟨a', h, hb⟩; cases h; exact hb⟩

theorem except_bind_error {x : Except ε α} {f : α → Except ε β} {e : ε} :
    (x >>= f) = .error e ↔ x = .error e ∨ ∃ a, x = .ok a ∧ f a = .error e := by
  cases x with
  | error e' =>
    constructor
    · intro h
      cases h
      exact .inl rfl
    · rintro (h | ⟨a, h, -⟩)
      · cases h
        rfl
      · cases h
  | ok a =>
    constructor
    · exact fun h => .inr ⟨a, rfl, h⟩
    · rintro (h | ⟨a', h, hb⟩)
      · cases h
      · cases h
        exact hb

theorem run_bind_pure (m : Prog σ ε α) (f : α → β) (s : σ) :
    (m >>= fun a => pure (f a)).run s = ((m.run s).1.map f, (m.run s).2) := by
  rw [run_bind]
  rcases m.run s with ⟨r, s'⟩
  cases r <;> rfl

/-- A sequence returns when both its parts do. -/
theorem run_bind_ok {m : Prog σ ε α} {f : α → Prog σ ε β} {s s' : σ} {b : β} :
    (m >>= f).run s = (.ok b, s') ↔
      ∃ a s₁, m.run s = (.ok a, s₁) ∧ (f a).run s₁ = (.ok b, s') := by
  rw [run_bind]
  rcases m.run s with ⟨r, s₁⟩
  cases r with
  | error e =>
    rw [andThen_error]
    constructor
    · intro h
      cases h
    · rintro ⟨a, s₂, h, -⟩
      cases h
  | ok a =>
    rw [andThen_ok]
    constructor
    · exact fun h => ⟨a, s₁, rfl, h⟩
    · rintro ⟨a', s₂, h, hf⟩
      cases h
      exact hf

theorem run_read_bind (f : σ → Prog σ ε β) (s : σ) : (read >>= f).run s = (f s).run s := rfl

theorem run_modify_bind (g : σ → σ) (f : Unit → Prog σ ε β) (s : σ) :
    (modify g >>= f).run s = (f ()).run (g s) := rfl

/-- A check that a program has passed. -/
theorem run_require_bind_ok {c : Bool} {e : ε} {f : Unit → Prog σ ε β} {s s' : σ} {b : β} :
    (require c e >>= f).run s = (.ok b, s') ↔ c = true ∧ (f ()).run s = (.ok b, s') := by
  cases c with
  | true => exact ⟨fun h => ⟨rfl, h⟩, fun h => h.2⟩
  | false =>
    constructor
    · intro h
      cases h
    · rintro ⟨h, -⟩
      cases h

theorem run_require_ok {c : Bool} {e : ε} {s s' : σ} {u : Unit} :
    (require c e : Prog σ ε Unit).run s = (.ok u, s') ↔ c = true ∧ s' = s := by
  cases c with
  | true => exact ⟨fun h => ⟨rfl, (congrArg Prod.snd h).symm⟩, fun h => by rw [h.2]; rfl⟩
  | false =>
    constructor
    · intro h
      cases h
    · rintro ⟨h, -⟩
      cases h

theorem run_ofExcept_bind {γ : Type} (x : Except ε α) (f : α → Except ε β) (k : β → Prog σ ε γ)
    (s : σ) : (ofExcept (x >>= f) >>= k).run s =
      (ofExcept x >>= fun a => ofExcept (f a) >>= k).run s := by
  cases x <;> rfl

/-! ## Loops in closed form -/

/-- A loop either takes all its elements or stops at the first one it does not take. The loop
invariant `I` makes what is taken independent of the elements already processed. -/
theorem run_each_cases {f : α → Prog σ ε Unit} {g : σ → α → σ} {I : σ → Prop} {takes : α → Bool}
    (htake : ∀ s x, I s → takes x = true → (f x).run s = (.ok (), g s x) ∧ I (g s x))
    (xs : List α) {s : σ} (hs : I s) :
    ((∀ x ∈ xs, takes x = true) ∧ (each f xs).run s = (.ok (), xs.foldl g s)) ∨
      ∃ q x r, xs = q ++ x :: r ∧ (∀ y ∈ q, takes y = true) ∧ takes x = false ∧ I (q.foldl g s) ∧
        (each f xs).run s = andThen ((f x).run (q.foldl g s)) (fun _ => each f r) := by
  induction xs generalizing s with
  | nil => exact .inl ⟨by simp, rfl⟩
  | cons x xs ih =>
    cases hx : takes x with
    | false => exact .inr ⟨[], x, xs, rfl, by simp, hx, hs, rfl⟩
    | true =>
      obtain ⟨hrun, hI⟩ := htake s x hs hx
      rw [run_each_cons, hrun, andThen_ok]
      rcases ih hI with ⟨hall, hr⟩ | ⟨q, y, r, rfl, hq, hy, hIq, hr⟩
      · exact .inl ⟨by simpa [hx] using hall, hr⟩
      · exact .inr ⟨x :: q, y, r, rfl, by simpa [hx] using hq, hy, hIq, hr⟩

/-- Collecting what a program returns that leaves the state alone. -/
theorem run_collect {f : α → Prog σ ε β} {g : α → β} {s : σ} {xs : List α}
    (h : ∀ x ∈ xs, (f x).run s = (.ok (g x), s)) : (collect f xs).run s = (.ok (xs.map g), s) := by
  induction xs with
  | nil => rfl
  | cons x xs ih =>
    rw [collect, run_bind, h x (List.mem_cons_self ..), andThen_ok, run_bind,
      ih fun y hy => h y (List.mem_cons_of_mem x hy)]
    rfl

/-- A collection that returns has asked every element. -/
theorem run_collect_ok {f : α → Prog σ ε β} {s s' : σ} {xs : List α} {ys : List β}
    (hf : ∀ x ∈ xs, ((f x).run s).2 = s) (h : (collect f xs).run s = (.ok ys, s')) :
    ∀ x ∈ xs, ∃ y, (f x).run s = (.ok y, s) := by
  induction xs generalizing ys s' with
  | nil => simp
  | cons x xs ih =>
    obtain ⟨y, s₁, hx, h⟩ := run_bind_ok.mp h
    obtain ⟨zs, s₂, hxs, -⟩ := run_bind_ok.mp h
    have hs := hf x (List.mem_cons_self ..)
    rw [hx] at hs
    obtain rfl : s₁ = s := hs
    intro z hz
    rcases List.mem_cons.mp hz with rfl | hz
    · exact ⟨y, hx⟩
    · exact ih (fun w hw => hf w (List.mem_cons_of_mem x hw)) hxs z hz

/-- A loop over a part of the state is a loop on that part. -/
theorem run_each_within {get : σ → τ} {put : σ → τ → σ} (hself : ∀ s, put s (get s) = s)
    (hget : ∀ s t, get (put s t) = t) (hput : ∀ s t t', put (put s t) t' = put s t')
    (f : α → Prog τ ε Unit) (xs : List α) (s : σ) :
    (each (fun x => within get put (f x)) xs).run s = (within get put (each f xs)).run s := by
  induction xs generalizing s with
  | nil => rw [run_within, run_each_nil, run_each_nil, hself]
  | cons x xs ih =>
    rw [run_each_cons, run_within, run_within, run_each_cons]
    rcases (f x).run (get s) with ⟨r, t⟩
    cases r with
    | error e => rfl
    | ok u => rw [andThen_ok, andThen_ok, ih, run_within, hget, hput]

/-! ## Relations a program moves along -/

/-- From every state, `m` returns along `R` or raises along `E`. -/
def Moves (R : σ → σ → Prop) (E : ε → σ → σ → Prop) (m : Prog σ ε α) : Prop :=
  ∀ s, match m.run s with
    | (.ok _, s') => R s s'
    | (.error e, s') => E e s s'

theorem Moves.of_ok {R : σ → σ → Prop} {E : ε → σ → σ → Prop} {m : Prog σ ε α}
    (h : Moves R E m) {s s' : σ} {a : α} (hr : m.run s = (.ok a, s')) : R s s' := by
  have hs := h s
  rw [hr] at hs
  exact hs

theorem Moves.of_error {R : σ → σ → Prop} {E : ε → σ → σ → Prop} {m : Prog σ ε α}
    (h : Moves R E m) {s s' : σ} {e : ε} (hr : m.run s = (.error e, s')) : E e s s' := by
  have hs := h s
  rw [hr] at hs
  exact hs

/-- However `m` ends, the state it leaves is related to the state it started from. -/
def Respects (R : σ → σ → Prop) (m : Prog σ ε α) : Prop := Moves R (fun _ => R) m

theorem Respects.snd {R : σ → σ → Prop} {m : Prog σ ε α} (h : Respects R m) (s : σ) :
    R s (m.run s).2 := by
  have hs := h s
  rcases hr : m.run s with ⟨r, s'⟩
  rw [hr] at hs
  cases r <;> exact hs

theorem Respects.of_run {R : σ → σ → Prop} {m : Prog σ ε α} (h : Respects R m) {s s' : σ}
    {r : Except ε α} (hr : m.run s = (r, s')) : R s s' := by
  have hs := h.snd s
  rwa [hr] at hs

theorem respects_of_snd {R : σ → σ → Prop} {m : Prog σ ε α} (h : ∀ s, R s (m.run s).2) :
    Respects R m := by
  intro s
  have hs := h s
  rcases hr : m.run s with ⟨r, s'⟩
  rw [hr] at hs
  cases r <;> exact hs

/-- What `Moves R E` needs of its relations to compose: returning is a preorder, and an error
after a return is an error from the start. -/
structure Along (R : σ → σ → Prop) (E : ε → σ → σ → Prop) : Prop where
  refl : ∀ s, R s s
  trans : ∀ {a b c}, R a b → R b c → R a c
  absorb : ∀ {e a b c}, R a b → E e b c → E e a c

/-- A preorder, for both ends. -/
theorem Along.of_preorder {R : σ → σ → Prop} (hrefl : ∀ s, R s s)
    (htrans : ∀ {a b c}, R a b → R b c → R a c) : Along R (fun _ : ε => R) :=
  ⟨hrefl, htrans, htrans⟩

/-- Programs that only look. -/
theorem along_still : Along (fun s s' : σ => s' = s) (fun (_ : ε) s s' => s' = s) :=
  .of_preorder (fun _ => rfl) (fun h h' => h'.trans h)

/-- Programs that keep what `view` shows of the state. -/
theorem along_view {ν : Type} (view : σ → ν) :
    Along (fun s s' => view s' = view s) (fun (_ : ε) s s' => view s' = view s) :=
  .of_preorder (fun _ => rfl) (fun h h' => h'.trans h)

/-- Programs whose errors are all in `P`. -/
theorem along_errors (P : ε → Prop) : Along (fun _ _ : σ => True) (fun e _ _ => P e) :=
  ⟨fun _ => trivial, fun _ _ => trivial, fun _ h => h⟩

namespace Along
variable {R : σ → σ → Prop} {E : ε → σ → σ → Prop} (law : Along R E)
include law

theorem pure (a : α) : Moves R E (Pure.pure a : Prog σ ε α) := fun s => law.refl s

theorem read : Moves R E (Prog.read : Prog σ ε σ) := fun s => law.refl s

theorem require {b : Bool} {e : ε} (he : ∀ s, E e s s) :
    Moves R E (Prog.require b e : Prog σ ε Unit) := by
  intro s
  cases b
  · exact he s
  · exact law.refl s

theorem doIf {b : Bool} {m : Prog σ ε Unit} (hm : Moves R E m) : Moves R E (Prog.doIf b m) := by
  intro s
  cases b
  · exact law.refl s
  · exact hm s

theorem ofExcept {x : Except ε α} (he : ∀ e, x = .error e → ∀ s, E e s s) :
    Moves R E (Prog.ofExcept x : Prog σ ε α) := by
  intro s
  cases x with
  | ok a => exact law.refl s
  | error e => exact he e rfl s

theorem bind {m : Prog σ ε α} {f : α → Prog σ ε β} (hm : Moves R E m)
    (hf : ∀ a, Moves R E (f a)) : Moves R E (m >>= f) := by
  intro s
  have h := hm s
  rw [run_bind]
  rcases hms : m.run s with ⟨r, s'⟩
  rw [hms] at h
  cases r with
  | error e => exact h
  | ok a =>
    have h' := hf a s'
    rw [andThen_ok]
    rcases hfs : (f a).run s' with ⟨r', s''⟩
    rw [hfs] at h'
    cases r' with
    | error e => exact law.absorb h h'
    | ok b => exact law.trans h h'

theorem each {f : α → Prog σ ε Unit} {xs : List α} (hf : ∀ x ∈ xs, Moves R E (f x)) :
    Moves R E (each f xs) := by
  induction xs with
  | nil => exact fun s => law.refl s
  | cons x xs ih =>
    exact law.bind (hf x (List.mem_cons_self ..))
      (fun _ => ih (fun y hy => hf y (List.mem_cons_of_mem x hy)))

theorem collect {f : α → Prog σ ε β} {xs : List α} (hf : ∀ x ∈ xs, Moves R E (f x)) :
    Moves R E (collect f xs) := by
  induction xs with
  | nil => exact fun s => law.refl s
  | cons x xs ih =>
    exact law.bind (hf x (List.mem_cons_self ..)) (fun y =>
      law.bind (ih (fun z hz => hf z (List.mem_cons_of_mem x hz))) (fun ys => law.pure _))

end Along

/-- A pure computation decides how the program goes on. -/
theorem Moves.bindExcept {R : σ → σ → Prop} {E : ε → σ → σ → Prop} {x : Except ε α}
    {f : α → Prog σ ε β} (he : ∀ e, x = .error e → ∀ s, E e s s)
    (hf : ∀ a, x = .ok a → Moves R E (f a)) : Moves R E (Prog.ofExcept x >>= f) := by
  cases x with
  | error e => exact he e rfl
  | ok a => exact hf a rfl

theorem Moves.modify {R : σ → σ → Prop} {E : ε → σ → σ → Prop} {f : σ → σ} (h : ∀ s, R s (f s)) :
    Moves R E (Prog.modify f : Prog σ ε Unit) := h

/-- What is computed from the result does not matter. -/
theorem Moves.of_bind_pure {R : σ → σ → Prop} {E : ε → σ → σ → Prop} {m : Prog σ ε α} {f : α → β}
    (h : Moves R E (m >>= fun a => Pure.pure (f a))) : Moves R E m := by
  intro s
  have hs := h s
  rw [run_bind] at hs
  rcases hms : m.run s with ⟨r, s'⟩
  rw [hms] at hs
  cases r <;> exact hs

theorem run_onError_ok {m : Prog σ ε α} {h : Prog σ ε Unit} {s s' : σ} {a : α}
    (hm : m.run s = (.ok a, s')) : (onError m h).run s = (.ok a, s') := by
  simp only [onError, hm]

theorem run_onError_error {m : Prog σ ε α} {h : Prog σ ε Unit} {s s' : σ} {e : ε}
    (hm : m.run s = (.error e, s')) :
    (onError m h).run s = (h >>= fun _ => (raise e : Prog σ ε α)).run s' := by
  simp only [onError, hm]

theorem respects_onError {R : σ → σ → Prop} (law : Along R (fun _ : ε => R)) {m : Prog σ ε α}
    {h : Prog σ ε Unit} (hm : Respects R m) (hh : Respects R h) : Respects R (onError m h) := by
  refine respects_of_snd fun s => ?_
  have hs := hm.snd s
  rw [onError]
  rcases hr : m.run s with ⟨r, s'⟩
  rw [hr] at hs
  cases r with
  | ok a => simpa only [hr] using hs
  | error e =>
    have hraise : Respects R (h >>= fun _ => (raise e : Prog σ ε α)) :=
      law.bind hh fun _ => law.refl
    simpa only [hr] using law.trans hs (hraise.snd s')

theorem Moves.within {R : σ → σ → Prop} {E : ε → σ → σ → Prop} {get : σ → τ} {put : σ → τ → σ}
    {R' : τ → τ → Prop} {E' : ε → τ → τ → Prop} {m : Prog τ ε α} (hm : Moves R' E' m)
    (hR : ∀ s t, R' (get s) t → R s (put s t)) (hE : ∀ e s t, E' e (get s) t → E e s (put s t)) :
    Moves R E (Prog.within get put m) := by
  intro s
  have h := hm (get s)
  rw [run_within]
  rcases hms : m.run (get s) with ⟨r, t⟩
  rw [hms] at h
  cases r with
  | error e => exact hE e s t h
  | ok a => exact hR s t h

/-! ## The errors a program can raise -/

/-- Every error `m` raises from `s` is in `P`. -/
def Raises (P : ε → Prop) (m : Prog σ ε α) (s : σ) : Prop := ∀ e, (m.run s).1 = .error e → P e

section Raises
variable {P : ε → Prop} {s : σ}

theorem Raises.of_ok {m : Prog σ ε α} {a : α} {s' : σ} (h : m.run s = (.ok a, s')) :
    Raises P m s := by
  intro e he
  rw [h] at he
  cases he

theorem Raises.of_error {m : Prog σ ε α} {e : ε} {s' : σ} (h : m.run s = (.error e, s'))
    (hP : P e) : Raises P m s := by
  intro e' he
  rw [h] at he
  cases he
  exact hP

theorem Moves.raises {R : σ → σ → Prop} {E : ε → σ → σ → Prop} {m : Prog σ ε α} (h : Moves R E m)
    (hP : ∀ e s', E e s s' → P e) : Raises P m s := by
  intro e he
  exact hP e _ (h.of_error (Prod.ext he rfl))

theorem Raises.bind {m : Prog σ ε α} {f : α → Prog σ ε β} (hm : Raises P m s)
    (hf : ∀ a s', m.run s = (.ok a, s') → Raises P (f a) s') : Raises P (m >>= f) s := by
  intro e he
  rw [run_bind] at he
  rcases hr : m.run s with ⟨r, s'⟩
  rw [hr] at he
  cases r with
  | error e' =>
    cases he
    exact hm e (by rw [hr])
  | ok a => exact hf a s' hr e he

theorem Raises.bind_pure {m : Prog σ ε α} {f : α → β} (hm : Raises P m s) :
    Raises P (m >>= fun a => Pure.pure (f a)) s :=
  hm.bind fun _ _ _ => .of_ok rfl

theorem Raises.ofExcept_bind {x : Except ε α} {f : α → Prog σ ε β} (hx : ∀ e, x = .error e → P e)
    (hf : ∀ a, x = .ok a → Raises P (f a) s) : Raises P (Prog.ofExcept x >>= f) s := by
  cases x with
  | error e => exact .of_error rfl (hx e rfl)
  | ok a => exact hf a rfl

theorem Raises.require_bind {b : Bool} {e : ε} {f : Unit → Prog σ ε β} (he : P e)
    (hf : b = true → Raises P (f ()) s) : Raises P (Prog.require b e >>= f) s := by
  cases b with
  | false => exact .of_error rfl he
  | true => exact hf rfl

theorem Raises.within {get : σ → τ} {put : σ → τ → σ} {m : Prog τ ε α}
    (hm : Raises P m (get s)) : Raises P (Prog.within get put m) s := hm

theorem Raises.collect {f : α → Prog σ ε β} {xs : List α} (hstill : ∀ x, ((f x).run s).2 = s)
    (hf : ∀ x ∈ xs, Raises P (f x) s) : Raises P (Prog.collect f xs) s := by
  induction xs with
  | nil => exact .of_ok rfl
  | cons x xs ih =>
    refine (hf x (List.mem_cons_self ..)).bind fun y s' hy => ?_
    obtain rfl : s' = s := by rw [← hstill x, hy]
    exact (ih fun z hz => hf z (List.mem_cons_of_mem x hz)).bind_pure

theorem Raises.onError {m : Prog σ ε α} {h : Prog σ ε Unit} (hm : Raises P m s)
    (hh : ∀ e s', m.run s = (.error e, s') → Raises P h s') : Raises P (Prog.onError m h) s := by
  intro e he
  rw [Prog.onError] at he
  rcases hr : m.run s with ⟨r, s'⟩
  cases r with
  | ok a => simp only [hr] at he; cases he
  | error e' =>
    have hraise : Raises P (h >>= fun _ => (raise e' : Prog σ ε α)) s' :=
      (hh e' s' hr).bind fun _ _ _ => .of_error rfl (hm e' (by rw [hr]))
    simp only [hr] at he
    exact hraise e he

end Raises

end Prog
end Foundations
