import Packrat.Matcher.Rule

/-!
# The cases of an application

What an application through the table does, by what the table says of it: it may be running, be
finished, or be unknown. In the last case its body runs, and a body that met its own application
again leaves a seed to grow.

* `memoized_of_active`, `memoized_of_done`: it is in the table.
* `memoized_of_none`: it is not; its body runs, and grows if it has to.
* `memoized_of_error`, `memoized_of_settled`: how that may go without growth.
* `grow_succ`: a round of growth.
-/

namespace Packrat

variable {φ : Type} [Account φ] {keep : Bool} {f : Frame} {call : Call} {body : Attempt φ}
  {st : State φ}

/-- How an application starts that is not in the table. -/
def State.entered (st : State φ) (call : Call) : State φ :=
  { pos := st.pos, memo := st.memo.begin (st.pos, call), account := Account.empty }

/-- How an application ends that was not in the table: it settles, and its result is kept or
forgotten. -/
def State.left (st : State φ) (keep : Bool) (f : Frame) (call : Call) (v : Option Value)
    (inside : State φ) : State φ :=
  { pos := if v.isSome then inside.pos else st.pos
    memo :=
      if keep then
        inside.memo.set (st.pos, call)
          (.done v inside.pos (Account.ofRule f call.rule st.pos v.isNone inside.account))
      else inside.memo.erase (st.pos, call)
    account := Account.append st.account
      (Account.ofRule f call.rule st.pos v.isNone inside.account) }

/-- How a round of growth starts: back at the start, with the seed in the table and all that was
begun since forgotten. -/
def State.seeded (st : State φ) (spot : Spot) (mark : Nat) (seed : Value) (stop : Nat) : State φ :=
  { st with
    pos := spot.1
    memo := (st.memo.set spot (.done (some seed) stop Account.empty)).forgetAfter mark }

/-- **A round of growth.** -/
theorem grow_succ {spot : Spot} {mark fuel : Nat} {seed : Value} {stop : Nat} :
    grow body spot mark (fuel + 1) seed stop st =
      body (st.seeded spot mark seed stop) >>= fun r =>
        match r.1 with
        | some v =>
          if stop < r.2.pos then grow body spot mark fuel v r.2.pos r.2
          else .ok (seed, r.2.grown stop mark)
        | none => .ok (seed, r.2.grown stop mark) := rfl

/-- The body of an application, and the growth of its value if the application was met again. -/
def ripened (body : Attempt φ) (f : Frame) (spot : Spot) (mark : Nat) (st : State φ) :
    Except Halt (Answer φ) := do
  let (value, inside) ← body st
  match value with
  | some seed =>
    if inside.memo.isLeftRecursive spot then do
      let (v, st) ← grow body spot mark (f.input.size - inside.pos + 1) seed inside.pos inside
      return (some v, st)
    else return (some seed, inside)
  | none => return (none, inside)

theorem memoized_of_active {met : Bool} (h : st.memo.get? (st.pos, call) = some (.active met)) :
    memoized keep f call body st =
      .ok (none, { st with memo := st.memo.set (st.pos, call) (.active true) }) := by
  unfold memoized
  simp only [h]

theorem memoized_of_done {v : Option Value} {stop : Nat} {account : φ}
    (h : st.memo.get? (st.pos, call) = some (.done v stop account)) :
    memoized keep f call body st =
      .ok (v, (st.missed account).moveTo (if v.isSome then stop else st.pos)) := by
  unfold memoized
  simp only [h]

/-- **An application that is not in the table**: its body ripens, and its result is left behind. -/
theorem memoized_of_none (hn : st.memo.get? (st.pos, call) = none) :
    memoized keep f call body st =
      ripened body f (st.pos, call) st.memo.mark (st.entered call) >>= fun r =>
        .ok (r.1, st.left keep f call r.1 r.2) := by
  unfold memoized ripened
  simp only [hn, bind_assoc]
  congr 1
  funext r
  obtain ⟨v, inside⟩ := r
  cases v with
  | none => rfl
  | some seed =>
    -- whether the value has to grow is asked of the table that the body left behind
    dsimp only
    split
    · simp only [bind_assoc]
      rfl
    · rfl

/-- The body ends the run. -/
theorem memoized_of_error {h : Halt} (hn : st.memo.get? (st.pos, call) = none)
    (hb : body (st.entered call) = .error h) : memoized keep f call body st = .error h := by
  rw [memoized_of_none hn, ripened, hb]
  rfl

/-- The body fails, or did not meet its own application again. -/
theorem memoized_of_settled {v : Option Value} {inside : State φ}
    (hn : st.memo.get? (st.pos, call) = none) (hb : body (st.entered call) = .ok (v, inside))
    (hl : v = none ∨ inside.memo.isLeftRecursive (st.pos, call) = false) :
    memoized keep f call body st = .ok (v, st.left keep f call v inside) := by
  rw [memoized_of_none hn, ripened, hb]
  simp only [bind, Except.bind]
  cases v with
  | none => rfl
  | some seed =>
    simp only [hl.resolve_left (by simp), Bool.false_eq_true, if_false]
    rfl

end Packrat
