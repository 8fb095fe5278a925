import Packrat.Proofs.Machine

/-!
# Clocks

The machine runs under a clock. What it comes to before the clock runs out it also comes to under
any larger clock, so a run comes to one thing or has no end.

* `Converges`: what a computation under a clock comes to.
* `Machine.ticks`: one tick more makes no difference to what has ended.
* `Machine.converges_run`: what a run comes to under one clock is what it comes to.
-/

namespace Packrat

/-- **A computation under a clock comes to `x`**, under every clock that is large enough. -/
def Converges {β : Type} (run : Nat → Option β) (x : β) : Prop :=
  ∃ enough, ∀ n, enough ≤ n → run n = some x

namespace Converges

variable {β γ : Type} {run : Nat → Option β} {x y : β}

theorem pure (x : β) : Converges (fun _ => some x) x := ⟨0, fun _ _ => rfl⟩

theorem bind {k : Nat → β → Option γ} {y : γ} (h : Converges run x)
    (hk : Converges (fun n => k n x) y) : Converges (fun n => run n >>= k n) y := by
  obtain ⟨enough, hrun⟩ := h
  obtain ⟨enough', hk⟩ := hk
  refine ⟨max enough enough', fun n hn => ?_⟩
  simp only [hrun n (by omega), hk n (by omega), Option.bind_eq_bind, Option.bind_some]

/-- A call takes one tick of the clock. -/
theorem tick (h : Converges (fun n => run (n + 1)) x) : Converges run x := by
  obtain ⟨enough, hrun⟩ := h
  refine ⟨enough + 1, fun n hn => ?_⟩
  obtain ⟨n, rfl⟩ : ∃ k, n = k + 1 := ⟨n - 1, by omega⟩
  exact hrun n (by omega)

theorem unique (h : Converges run x) (h' : Converges run y) : x = y := by
  obtain ⟨enough, hx⟩ := h
  obtain ⟨enough', hy⟩ := h'
  have heq : some x = some y := by
    rw [← hx (max enough enough') (by omega), hy (max enough enough') (by omega)]
  exact Option.some.inj heq

end Converges

/-! ### A tick more -/

variable {φ : Type} [Account φ]

/-- What the first comes to, the second comes to as well. -/
structure Sooner {β : Type} (a b : Option β) : Prop where
  eq_some : ∀ x, a = some x → b = some x

namespace Sooner

variable {β γ : Type} {a b : Option β}

theorem refl (a : Option β) : Sooner a a := ⟨fun _ h => h⟩

theorem none (b : Option β) : Sooner none b := ⟨fun _ h => by cases h⟩

theorem bind {k k' : β → Option γ} (h : Sooner a b) (hk : ∀ x, Sooner (k x) (k' x)) :
    Sooner (a >>= k) (b >>= k') := by
  refine ⟨fun y hy => ?_⟩
  obtain ⟨x, hx, hxy⟩ := Option.bind_eq_some_iff.1 hy
  exact Option.bind_eq_some_iff.2 ⟨x, h.eq_some x hx, (hk x).eq_some y hxy⟩

end Sooner

namespace Machine

/-- What has ended under a clock ends alike with one tick more, whatever the machine does. -/
structure Ticks (φ : Type) [Account φ] (e : Engine) (n : Nat) : Prop where
  eval : ∀ {expr env} {m : Machine φ},
    Sooner (m.eval e n expr env) (m.eval e (n + 1) expr env)
  evalNoted : ∀ {expr env} {m : Machine φ},
    Sooner (m.evalNoted e n expr env) (m.evalNoted e (n + 1) expr env)
  evalItems : ∀ {items last env} {m : Machine φ},
    Sooner (m.evalItems e n items last env) (m.evalItems e (n + 1) items last env)
  evalAlternatives : ∀ {es start env} {m : Machine φ},
    Sooner (m.evalAlternatives e n es start env) (m.evalAlternatives e (n + 1) es start env)
  evalRounds : ∀ {body min max start taken env} {m : Machine φ},
    Sooner (m.evalRounds e n body min max start taken env)
      (m.evalRounds e (n + 1) body min max start taken env)
  applyNamed : ∀ {d name args dynamic} {m : Machine φ},
    Sooner (m.applyNamed e n d name args dynamic) (m.applyNamed e (n + 1) d name args dynamic)
  applyBuiltin : ∀ {d b args} {m : Machine φ},
    Sooner (m.applyBuiltin e n d b args) (m.applyBuiltin e (n + 1) d b args)
  applyRule : ∀ {d o rule args} {m : Machine φ},
    Sooner (m.applyRule e n d o rule args) (m.applyRule e (n + 1) d o rule args)
  applyMemoized : ∀ {d o rule args} {m : Machine φ},
    Sooner (m.applyMemoized e n d o rule args) (m.applyMemoized e (n + 1) d o rule args)
  growSeed : ∀ {d o rule args spot mark seed stop} {m : Machine φ},
    Sooner (m.growSeed e n d o rule args spot mark seed stop)
      (m.growSeed e (n + 1) d o rule args spot mark seed stop)
  evalBody : ∀ {d o rule args} {m : Machine φ},
    Sooner (m.evalBody e n d o rule args) (m.evalBody e (n + 1) d o rule args)

variable {e : Engine} {n : Nat}

theorem evalNoted_sooner (h : Ticks φ e n) {expr : Expr} {env : Env} {m : Machine φ} :
    Sooner (m.evalNoted e (n + 1) expr env) (m.evalNoted e (n + 1 + 1) expr env) := by
  cases expr with
  | sequence items =>
    simp only [evalNoted]
    exact h.evalItems.bind fun _ => .refl _
  | choice es => simp only [evalNoted]; exact h.evalAlternatives
  | repeated body min max => simp only [evalNoted]; exact h.evalRounds
  | lookahead negated body =>
    cases negated <;> (simp only [evalNoted]; exact h.eval.bind fun _ => .refl _)
  | apply rule args =>
    simp only [evalNoted]
    split
    · exact .refl _
    · exact h.applyNamed.bind fun _ => .refl _
  | super rule args =>
    simp only [evalNoted]
    repeat' split
    · exact .refl _
    · exact .refl _
    · exact h.applyRule.bind fun _ => .refl _
    · exact h.applyBuiltin.bind fun _ => .refl _
    · exact .refl _
  | foreign grammar rule args =>
    simp only [evalNoted]
    repeat' split
    · exact .refl _
    · exact .refl _
    · exact h.applyNamed.bind fun _ => .refl _
  | bind name body => simp only [evalNoted]; exact h.eval.bind fun _ => .refl _
  | nested body =>
    simp only [evalNoted]
    split
    · exact .refl _
    · exact h.eval.bind fun _ => .refl _
  | capture body => simp only [evalNoted]; exact h.eval.bind fun _ => .refl _
  | _ => exact .refl _

theorem evalItems_sooner (h : Ticks φ e n) {items : List Expr} {last : Value} {env : Env}
    {m : Machine φ} :
    Sooner (m.evalItems e (n + 1) items last env) (m.evalItems e (n + 1 + 1) items last env) := by
  cases items with
  | nil => exact .refl _
  | cons item items =>
    simp only [evalItems]
    refine h.eval.bind fun x => ?_
    split
    · exact h.evalItems
    · exact .refl _
    · exact .refl _

theorem evalAlternatives_sooner (h : Ticks φ e n) {es : List Expr} {start : Nat} {env : Env}
    {m : Machine φ} :
    Sooner (m.evalAlternatives e (n + 1) es start env)
      (m.evalAlternatives e (n + 1 + 1) es start env) := by
  cases es with
  | nil => exact .refl _
  | cons item es =>
    simp only [evalAlternatives]
    refine h.eval.bind fun x => ?_
    split
    · exact .refl _
    · exact h.evalAlternatives
    · exact .refl _

theorem evalRounds_sooner (h : Ticks φ e n) {body : Expr} {min : Nat} {max : Option Nat}
    {start : Nat} {taken : Array Value} {env : Env} {m : Machine φ} :
    Sooner (m.evalRounds e (n + 1) body min max start taken env)
      (m.evalRounds e (n + 1 + 1) body min max start taken env) := by
  simp only [evalRounds]
  split
  · exact .refl _
  · refine h.eval.bind fun x => ?_
    split
    · exact .refl _
    · exact .refl _
    · split
      · exact .refl _
      · exact h.evalRounds

theorem applyNamed_sooner (h : Ticks φ e n) {d : Grammar} {name : String} {args : List Value}
    {dynamic : Bool} {m : Machine φ} :
    Sooner (m.applyNamed e (n + 1) d name args dynamic)
      (m.applyNamed e (n + 1 + 1) d name args dynamic) := by
  simp only [applyNamed]
  split
  · exact h.applyRule
  · split
    · exact h.applyBuiltin
    · exact .refl _

theorem applyBuiltin_sooner (h : Ticks φ e n) {d : Grammar} {b : Builtin} {args : List Value}
    {m : Machine φ} :
    Sooner (m.applyBuiltin e (n + 1) d b args) (m.applyBuiltin e (n + 1 + 1) d b args) := by
  simp only [applyBuiltin]
  split
  · split
    · exact h.applyNamed.bind fun _ => .refl _
    · exact h.applyNamed
    · exact .refl _
  · exact .refl _

section Rules

variable {d o : Grammar} {rule : Rule} {args : List Value} {m : Machine φ}

theorem applyRule_sooner (h : Ticks φ e n) :
    Sooner (m.applyRule e (n + 1) d o rule args) (m.applyRule e (n + 1 + 1) d o rule args) := by
  simp only [applyRule]
  split
  · split
    · exact .refl _
    · exact h.applyMemoized.bind fun _ => .refl _
  · exact .refl _

theorem applyMemoized_sooner (h : Ticks φ e n) :
    Sooner (m.applyMemoized e (n + 1) d o rule args)
      (m.applyMemoized e (n + 1 + 1) d o rule args) := by
  simp only [applyMemoized]
  split
  · exact .refl _
  · exact .refl _
  · refine h.evalBody.bind fun x => ?_
    split
    · exact .refl _
    · exact .refl _
    · split
      · exact h.growSeed.bind fun _ => .refl _
      · exact .refl _

theorem growSeed_sooner (h : Ticks φ e n) {spot : Spot} {mark : Nat} {seed : Value} {stop : Nat} :
    Sooner (m.growSeed e (n + 1) d o rule args spot mark seed stop)
      (m.growSeed e (n + 1 + 1) d o rule args spot mark seed stop) := by
  simp only [growSeed]
  split
  · refine h.evalBody.bind fun x => ?_
    split
    · exact .refl _
    · exact .refl _
    · split
      · exact h.growSeed
      · exact .refl _
  · exact .refl _

end Rules

theorem ticks_succ (h : Ticks φ e n) : Ticks φ e (n + 1) where
  eval := h.evalNoted
  evalNoted := evalNoted_sooner h
  evalItems := evalItems_sooner h
  evalAlternatives := evalAlternatives_sooner h
  evalRounds := evalRounds_sooner h
  applyNamed := applyNamed_sooner h
  applyBuiltin := applyBuiltin_sooner h
  applyRule := applyRule_sooner h
  applyMemoized := applyMemoized_sooner h
  growSeed := growSeed_sooner h
  evalBody := h.eval.bind fun _ => .refl _

/-- **One tick more makes no difference** to what has ended. -/
theorem ticks (e : Engine) (n : Nat) : Ticks φ e n := by
  induction n with
  | zero => constructor <;> (intros; exact .none _)
  | succ n ih => exact ticks_succ ih

/-- **What a run comes to under one clock is what it comes to.** -/
theorem converges_run {e : Engine} {n : Nat} {g : Grammar} {rule : String} {input : Input}
    {args : List Value} {toEnd : Bool} {x : Except Fault Outcome × Machine Furthest}
    (h : run e n g rule input args toEnd = some x) :
    Converges (fun n => run e n g rule input args toEnd) x := by
  refine ⟨n, fun k hk => ?_⟩
  induction hk with
  | refl => exact h
  | @step k _ ih =>
    have hsooner : Sooner (run e k g rule input args toEnd)
        (run e (k + 1) g rule input args toEnd) :=
      (ticks e k).applyNamed.bind fun _ => .refl _
    exact hsooner.eq_some x ih

end Machine

end Packrat
