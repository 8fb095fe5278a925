import Packrat.Proofs.Application
import Packrat.Proofs.Likeness
import Packrat.Proofs.Runs

/-!
# How runs may end

Whatever a match goes through, it ends early only in ways that its steps can end in. To show that
some errors never come up it is enough to say which applications may happen, and to see that no such
application ends in one of them at once.

* `Coupling.safe`: a computation ends early only in an allowed way.
* `memoized_error`: the table adds no way to end but that of a loop without an end.
* `Safety`: which applications may happen, so that everything stays allowed.
* `Safety.run`: then a whole run ends early only in an allowed way.
-/

namespace Packrat

variable {φ : Type} [Account φ]

/-- **A computation that ends early only in allowed ways.** Only the first of the two computations
matters. -/
def Coupling.safe (allowed : Halt → Prop) : Coupling φ φ where
  rel _ s t m _ := s.pos = t.pos → ∀ h, m = .error h → allowed h
  halts := allowed
  at_pos h hpos := h hpos hpos
  halt ha _ h he := by cases he; exact ha
  move _ h he := by cases he
  expect _ h he := by cases he
  bind {_ _ _ _ _ m _ _ _} hm hj hpos h he := by
    cases m with
    | error h' => exact hm hpos h (by cases he; rfl)
    -- the second run has no state to go on from, so the first stands in for it
    | ok r => exact hj r.1 r.2 r.2 rfl h he
  negated {_ _ _ _ m _} hm hpos h he := by
    cases m with
    | error h' => exact hm hpos h (by cases he; rfl)
    | ok r => cases he
  nested {_ _ _ _ _ m _ _} _ hm _ h he := by
    cases m with
    | error h' => exact hm rfl h (by cases he; rfl)
    | ok r => cases he

/-! ### Applications through the table -/

/-- Growth ends early only as the body does, or for want of rounds. -/
theorem grow_error {body : Attempt φ} {spot : Spot} {mark fuel : Nat} {seed : Value} {stop : Nat}
    {st : State φ} {h : Halt} (hg : grow body spot mark fuel seed stop st = .error h) :
    h = .exhausted ∨ ∃ st', body st' = .error h := by
  induction fuel generalizing seed stop st with
  | zero => cases hg; exact .inl rfl
  | succ fuel ih =>
    rw [grow_succ] at hg
    cases hb : body (st.seeded spot mark seed stop) with
    | error h' =>
      rw [hb] at hg
      cases hg
      exact .inr ⟨_, hb⟩
    | ok r =>
      obtain ⟨v, inside⟩ := r
      rw [hb] at hg
      cases v with
      | none => cases hg
      | some v =>
        have hg : (if stop < inside.pos then grow body spot mark fuel v inside.pos inside
            else .ok (seed, inside.grown stop mark)) = .error h := hg
        split at hg
        · exact ih hg
        · cases hg

/-- Ripening ends early only as the body does, or for want of rounds. -/
theorem ripened_error {body : Attempt φ} {f : Frame} {spot : Spot} {mark : Nat} {st : State φ}
    {h : Halt} (hr : ripened body f spot mark st = .error h) :
    h = .exhausted ∨ ∃ st', body st' = .error h := by
  unfold ripened at hr
  cases hb : body st with
  | error h' =>
    rw [hb] at hr
    cases hr
    exact .inr ⟨_, hb⟩
  | ok r =>
    obtain ⟨v, inside⟩ := r
    rw [hb] at hr
    cases v with
    | none => cases hr
    | some seed =>
      simp only [bind, Except.bind] at hr
      split at hr
      · cases hg : grow body spot mark (f.input.size - inside.pos + 1) seed inside.pos inside with
        | error h' =>
          rw [hg] at hr
          cases hr
          exact grow_error hg
        | ok r => rw [hg] at hr; cases hr
      · cases hr

/-- **The table adds no way to end**: an application through it ends early only as its body does, or
for want of rounds. -/
theorem memoized_error {keep : Bool} {f : Frame} {call : Call} {body : Attempt φ} {st : State φ}
    {h : Halt} (hm : memoized keep f call body st = .error h) :
    h = .exhausted ∨ ∃ st', body st' = .error h := by
  cases hg : st.memo.get? (st.pos, call) with
  | some entry =>
    cases entry with
    | active met => rw [memoized_of_active hg] at hm; cases hm
    | done v stop account => rw [memoized_of_done hg] at hm; cases hm
  | none =>
    rw [memoized_of_none hg] at hm
    cases hr : ripened body f (st.pos, call) st.memo.mark (st.entered call) with
    | error h' =>
      rw [hr] at hm
      cases hm
      exact ripened_error hr
    | ok r => rw [hr] at hm; cases hm

/-! ### Whole runs -/

/-- **Which applications may happen**, so that a run ends early in allowed ways only: what may
happen ends at once in no other way, and leads to nothing that may not happen. -/
structure Safety (registry : Registry) (allowed : Halt → Prop)
    (permits : Grammar → Target → List Value → Prop) : Prop where
  count {d : Grammar} {target : Target} {args : List Value} : permits d target args →
    target.arity.accepts args.length = false →
      allowed (.fatal (.arityMismatch target.name target.arity.text args.length))
  type {expected actual : String} : allowed (.fatal (.typeMismatch expected actual))
  action {a : Action} {scope : Scope} {c : Cause} : a.eval registry scope = .error c →
    allowed (.fatal c)
  loop : allowed .exhausted
  limit {n : Nat} : allowed (.fatal (.recursionLimit n))
  dynamic {d : Grammar} {name : String} {target : Target} {args : List Value} :
    permits d (.builtin .apply) (.string name :: args) → d.target? name = some target →
      permits d target args
  spaces {d o : Grammar} {r : Rule} {args : List Value} : permits d (.builtin .token) args →
    d.resolve? "spaces" = some (o, r) → permits d (.rule o r) []
  body {d o : Grammar} {r : Rule} {args : List Value} {e : Expr} {as : List Action}
    {meaning : Except Cause (Grammar × Target)} : permits d (.rule o r) args →
    e ∈ r.body.subexprs → e.application? d o = some (as, meaning) →
      match meaning with
      | .ok (g, target) => ∀ args : List Value, args.length = as.length → permits g target args
      | .error c => allowed (.fatal c)

namespace Safety

variable {registry : Registry} {allowed : Halt → Prop}
  {permits : Grammar → Target → List Value → Prop}

/-- If the rules that may be applied end early in allowed ways only, so does everything that may
happen. -/
theorem calling (S : Safety registry allowed permits) {apply : Applier φ}
    (ha : ∀ f d o r args s h, permits d (.rule o r) args → apply f d o r args s = .error h →
      allowed h) :
    (Coupling.safe allowed).Calling registry apply apply permits where
  count := S.count
  type := S.type
  action := S.action
  loop := S.loop
  dynamic := S.dynamic
  spaces := S.spaces
  rule hp _ _ h he := ha _ _ _ _ _ _ h hp he

/-- **At any depth**, a rule that may be applied ends early in allowed ways only. -/
theorem rules (S : Safety registry allowed permits) (keep : Bool) (limit depth : Nat) (f : Frame)
    (d o : Grammar) (r : Rule) (args : List Value) (s : State φ) (h : Halt)
    (hp : permits d (.rule o r) args)
    (he : applyDepth (memoized keep) registry limit depth f d o r args s = .error h) :
    allowed h := by
  -- the body of a rule applies the rules in it one level further down
  induction depth generalizing f d o r args s h with
  | zero => cases he; exact S.limit
  | succ depth ih =>
    rcases memoized_error he with rfl | ⟨st, hb⟩
    · exact S.loop
    · exact (S.calling ih).runBody (s := st) (t := st)
        (fun e he as meaning hm => S.body hp he hm) rfl h hb

/-- **A run ends early in allowed ways only**, if the application it starts with may happen. -/
theorem run {e : Engine} (S : Safety e.registry allowed permits) {g : Grammar} {rule : String}
    {input : Input} {args : List Value} {toEnd : Bool} {target : Target} {h : Halt}
    (ht : g.target? rule = some target) (hp : permits g target args)
    (hr : e.run g rule input args toEnd = .error h) : allowed h := by
  have hs : e.start (φ := Furthest) g rule input args = .error h := e.run_error hr
  unfold Engine.start applyName at hs
  rw [ht] at hs
  exact (S.calling (S.rules e.options.memoize e.options.maxDepth e.options.maxDepth)).target hp rfl
    h hs

end Safety

end Packrat
