import Packrat.Proofs.Echo
import Packrat.Proofs.Progress
import Packrat.Proofs.Scopes

/-!
# Repetition, round by round

A repetition does not go on after a round that consumed nothing. It takes the value of that round as
often as the minimum asks for. The plain loop instead evaluates the body again and again until the
minimum is reached. If the body binds nothing, the two show the same: a round that consumed nothing
would come to the same once more, and what it missed was missed already.

* `plainRepeat`: the plain loop.
* `Run.Repeatable`: what is asked of the body.
* `Again`: the states in which the rounds after an empty one start.
* `plainRounds_again`: these rounds.
* `plainRounds_shown`: all rounds.
* `Expr.eval_repeated_shown`: a repetition shows what the plain loop shows.
-/

namespace Packrat

variable {φ : Type}

/-- Rounds of the plain loop, at most `fuel` of them, after those that gave the values `taken`. A
round that consumes nothing is the last only if there have been enough. -/
def plainRounds (body : Run φ) (min : Nat) (max : Option Nat) :
    (fuel : Nat) → (taken : Array Value) → Scope → State φ →
      Except Halt (Array Value × Scope × State φ)
  | fuel, taken, scope, st =>
    if max.any fun max => max ≤ taken.size then .ok (taken, scope, st)
    else
      match fuel with
      | 0 => .error .exhausted
      | fuel + 1 => do
        let r ← body scope st
        match r.value with
        | none => return (taken, r.scope, r.state)
        | some v =>
          let taken := taken.push v
          if r.state.pos = st.pos ∧ min ≤ taken.size then return (taken, r.scope, r.state)
          else plainRounds body min max fuel taken r.scope r.state

/-- **The plain loop.** It fails, back at its start, if there were fewer rounds than the minimum. -/
def plainRepeat (body : Run φ) (min : Nat) (max : Option Nat) (fuel : Nat) : Run φ :=
  fun scope st => do
    let start := st.pos
    let (taken, scope, st) ← plainRounds body min max fuel #[] scope st
    if taken.size < min then return { value := none, scope, state := st.moveTo start }
    else return { value := some (repeatValue max taken), scope, state := st }

/-- What a state shows: all but the table. -/
def State.shown (st : State φ) : Nat × φ := (st.pos, st.account)

/-- What a reply shows: all but the table. -/
def Reply.shown (r : Reply φ) : Option Value × Scope × Nat × φ := (r.value, r.scope, r.state.shown)

section Required

variable {min taken : Nat} {max : Option Nat}

theorem requiredRounds_le (min : Nat) (max : Option Nat) : requiredRounds min max ≤ min := by
  cases max with
  | none => exact Nat.le_refl min
  | some max => exact Nat.min_le_left min max

/-- No more rounds are asked for than the maximum allows. -/
theorem requiredRounds_le_of_reached (h : (max.any fun max => max ≤ taken) = true) :
    requiredRounds min max ≤ taken := by
  cases max with
  | none => cases h
  | some max => exact Nat.le_trans (Nat.min_le_right min max) (of_decide_eq_true h)

/-- Below the minimum and the maximum, one more round is asked for. -/
theorem lt_requiredRounds (hmin : taken < min) (hmax : ¬ (max.any fun max => max ≤ taken) = true) :
    taken < requiredRounds min max := by
  cases max with
  | none => exact hmin
  | some max => exact Nat.lt_min.2 ⟨hmin, Nat.lt_of_not_le fun hle => hmax (decide_eq_true hle)⟩

/-- Where no more rounds are asked for, no values are added. -/
theorem append_missing (taken : Array Value) (value : Value)
    (h : requiredRounds min max ≤ taken.size) :
    taken ++ Array.replicate (requiredRounds min max - taken.size) value = taken := by
  rw [Nat.sub_eq_zero_of_le h, Array.replicate_zero, Array.append_empty]

end Required

variable [Account φ] {J : Account.Joins φ} {keep : Bool} {f : Frame} {body : Run φ}
  {scope : Scope} {s s' t : State φ} {v : Option Value}

/-- **A body that may be repeated**: it leaves the scope as it is, it advances, and it echoes. -/
structure Run.Repeatable (J : Account.Joins φ) (keep : Bool) (f : Frame) (body : Run φ) : Prop where
  scope {scope : Scope} {s : State φ} {r : Reply φ} : body scope s = .ok r → r.scope = scope
  advances (scope : Scope) (s : State φ) : s.Sound (Books.blank φ) f →
    Ends (fun r => Advance (Books.blank φ) f s r.value r.state) (body scope s)
  echoes (D : Spot → Prop) (scope : Scope) (s t : State φ) :
    (echo J keep D).replies f s t (body scope s) (body scope t)

/-- An expression that binds nothing may be repeated. -/
theorem Expr.eval_repeatable (J : Account.Joins φ) (keep : Bool) (registry : Registry)
    (limit depth : Nat) {e : Expr} (he : boundBy e.subexprs = []) (ctx : Context) :
    (e.eval (applyDepth (memoized keep) registry limit depth) registry ctx).Repeatable J keep
      ctx.frame where
  scope h := eval_scope he h
  advances _ _ h := eval_advances (applyDepth_advances keep registry limit depth) e ctx
    (fun _ _ => trivial) h
  echoes D scope s t := eval_echoes J keep D registry limit depth e ctx scope s t

/-- **Where the rounds after an empty one start**, if the empty one went from `s` to `s'`: nothing
shows that was not shown by `s'`, and the table has all that the empty round needs. -/
structure Again (keep : Bool) (s s' t : State φ) : Prop where
  shown : t.shown = s'.shown
  known : keep = true → s'.memo.KnownTo t.memo
  twin : keep = false → s.memo.Twin s.memo.UnderWay t.memo

omit [Account φ] in
theorem Again.pos (h : Again keep s s' t) : t.pos = s'.pos := congrArg Prod.fst h.shown

omit [Account φ] in
/-- The first of these rounds starts where the empty one ended. -/
theorem Again.first (h : s.memo.Grown keep s'.memo) : Again keep s s' s' where
  shown := rfl
  known _ := .refl s'.memo
  twin hk := by
    subst hk
    exact .of_grown h

/-- **An empty round comes to the same once more**, and the one after it starts in such a state
again. -/
theorem Again.next (hb : body.Repeatable J keep f) (hr : body scope s = .ok ⟨v, scope, s'⟩)
    (hpos : s'.pos = s.pos) (h : Again keep s s' t) :
    ∃ t', body scope t = .ok ⟨v, scope, t'⟩ ∧ Again keep s s' t' := by
  have haccount : t.account = s'.account := congrArg Prod.snd h.shown
  have hecho : Echo keep s.memo.UnderWay s t s' (v, scope)
      (body scope t >>= fun r => .ok r.split) :=
    hb.echoes s.memo.UnderWay scope s t (h.pos.trans hpos).symm (v, scope) s' (by rw [hr]; rfl)
  -- what the round adds is part of what the account has already
  have hround {w : Memo φ} (hw : Adds s t s' (v, scope) w (body scope t >>= fun r => .ok r.split)) :
      body scope t = .ok ⟨v, scope, { pos := s'.pos, memo := w, account := s'.account }⟩ := by
    obtain ⟨x, hx, hn⟩ := hw
    have hagain : Account.append t.account x = s'.account := by rw [haccount, hx, J.again]
    rw [hagain] at hn
    cases hbt : body scope t with
    | error halt =>
      rw [hbt] at hn
      cases hn
    | ok r =>
      rw [hbt] at hn
      cases r
      cases hn
      rfl
  cases keep with
  | true =>
    obtain ⟨w, ⟨htw, -⟩, hw⟩ := hecho.recalled rfl (h.known rfl)
    exact ⟨_, hround hw, rfl, fun _ => (h.known rfl).trans htw, nofun⟩
  | false =>
    obtain ⟨w, hsw, hw⟩ := hecho.redone rfl (h.twin rfl)
    exact ⟨_, hround hw, rfl, nofun, fun _ => (Memo.Twin.of_grown hecho.grown).trans hsw⟩

/-- **The rounds after an empty one** add the value of the empty one as often as it is missing. -/
theorem plainRounds_again (hb : body.Repeatable J keep f) {value : Value}
    (hr : body scope s = .ok ⟨some value, scope, s'⟩) (hpos : s'.pos = s.pos) {min : Nat}
    {max : Option Nat} (fuel : Nat) (taken : Array Value) (t : State φ) (h : Again keep s s' t)
    (hlt : taken.size < min) (hfuel : min - taken.size ≤ fuel) :
    ∃ t', plainRounds body min max fuel taken scope t =
        .ok (taken ++ Array.replicate (requiredRounds min max - taken.size) value, scope, t') ∧
      t'.shown = s'.shown := by
  induction fuel generalizing taken t with
  | zero => omega
  | succ fuel ih =>
    unfold plainRounds
    split
    next hmax =>
      -- the maximum is reached, so nothing is missing
      exact ⟨t, by rw [append_missing taken value (requiredRounds_le_of_reached hmax)], h.shown⟩
    next hmax =>
      obtain ⟨t', ht', h'⟩ := h.next hb hr hpos
      have hstart : t'.pos = t.pos := h'.pos.trans h.pos.symm
      have hsize : (taken.push value).size = taken.size + 1 := Array.size_push value
      have hmissing : requiredRounds min max - taken.size =
          requiredRounds min max - (taken.push value).size + 1 := by
        have := lt_requiredRounds hlt hmax
        omega
      have htaken (n : Nat) : taken.push value ++ Array.replicate n value =
          taken ++ Array.replicate (n + 1) value := by
        rw [Array.replicate_succ', Array.push_eq_append, Array.append_assoc]
      rw [ht', hmissing, ← htaken]
      simp only [bind, Except.bind]
      split
      next hdone =>
        rw [append_missing _ value (Nat.le_trans (requiredRounds_le min max) hdone.2)]
        exact ⟨t', rfl, h'.shown⟩
      next hmore =>
        have hfew : (taken.push value).size < min :=
          Nat.lt_of_not_le fun hle => hmore ⟨hstart, hle⟩
        exact ih _ t' h' hfew (by omega)

/-- **All rounds**: the plain loop shows what the repetition shows, if each may go on for as long as
there is input left, and the plain loop for as many rounds more as the minimum asks for. -/
theorem plainRounds_shown (hb : body.Repeatable J keep f) (min : Nat) (max : Option Nat)
    (scope : Scope) (bound fuel : Nat) (taken : Array Value) (s : State φ)
    (h : s.Sound (Books.blank φ) f) (hbound : f.input.size - s.pos < bound)
    (hfuel : f.input.size - s.pos + (min - taken.size) < fuel) :
    Tracks False (fun a b => b.1 = a.1 ∧ b.2.1 = a.2.1 ∧ b.2.2.shown = a.2.2.shown)
      (repeatRounds body min max bound taken scope s)
      (plainRounds body min max fuel taken scope s) := by
  induction bound generalizing taken s fuel with
  | zero => omega
  | succ bound ih =>
    obtain ⟨fuel, rfl⟩ : ∃ fuel', fuel = fuel' + 1 := ⟨fuel - 1, by omega⟩
    unfold repeatRounds plainRounds
    split
    · exact ⟨_, rfl, rfl, rfl, rfl⟩
    next hmax =>
      cases hr : body scope s with
      | error halt => exact .inr rfl
      | ok r =>
        obtain ⟨v, scope', s'⟩ := r
        obtain rfl : scope' = scope := hb.scope hr
        have hs' : Advance (Books.blank φ) f s v s' := by
          have hends := hb.advances scope' s h
          rwa [hr] at hends
        cases v with
        | none => exact ⟨_, rfl, rfl, rfl, rfl⟩
        | some value =>
          simp only [bind, Except.bind]
          have hsize : (taken.push value).size = taken.size + 1 := Array.size_push value
          by_cases hpos : s'.pos = s.pos
          · rw [if_pos hpos]
            by_cases hmin : min ≤ (taken.push value).size
            · rw [if_pos ⟨hpos, hmin⟩,
                append_missing _ value (Nat.le_trans (requiredRounds_le min max) hmin)]
              exact ⟨_, rfl, rfl, rfl, rfl⟩
            · -- too few rounds yet: the plain loop makes up for them one by one
              have hecho := hb.echoes (fun _ => False) scope' s s rfl (some value, scope') s'
                (by rw [hr]; rfl)
              obtain ⟨t, ht, hshown⟩ := plainRounds_again hb hr hpos fuel (taken.push value) s'
                (.first hecho.grown) (Nat.lt_of_not_le hmin) (by omega)
              rw [if_neg fun hend => hmin hend.2, ht]
              exact ⟨_, rfl, rfl, rfl, hshown⟩
          · rw [if_neg hpos, if_neg fun hend => hpos hend.1]
            have hlt : s.pos < s'.pos := Nat.lt_of_le_of_ne hs'.forward (Ne.symm hpos)
            have hle : s'.pos ≤ f.input.size := hs'.sound.within
            exact ih fuel (taken.push value) s' hs'.sound (by omega) (by omega)

/-- A repetition of such a body shows what the plain loop shows. -/
theorem plainRepeat_shown (hb : body.Repeatable J keep f) {min : Nat} {max : Option Nat}
    {fuel : Nat} (h : s.Sound (Books.blank φ) f) (hfuel : f.input.size - s.pos + min < fuel) :
    (plainRepeat body min max fuel scope s).map Reply.shown =
      (evalRepeat body min max f.input.size scope s).map Reply.shown := by
  have hrounds := plainRounds_shown hb min max scope (f.input.size - s.pos + 1) fuel #[] s h
    (Nat.lt_succ_self _) (by simpa using hfuel)
  unfold plainRepeat evalRepeat
  dsimp only
  cases hr : repeatRounds body min max (f.input.size - s.pos + 1) #[] scope s with
  | error halt =>
    rw [hr] at hrounds
    rw [hrounds.resolve_left id]
  | ok r =>
    rw [hr] at hrounds
    obtain ⟨⟨taken, scope', t⟩, ht, htaken, hscope, hshown⟩ := hrounds
    obtain ⟨rfl, rfl⟩ : taken = r.1 ∧ scope' = r.2.1 := ⟨htaken, hscope⟩
    have haccount : t.account = r.2.2.account := congrArg Prod.snd hshown
    have hplain : plainRounds body min max fuel #[] scope s = .ok (r.1, r.2.1, t) := ht
    rw [hplain]
    simp only [bind, Except.bind]
    split
    · exact congrArg (fun a => Except.ok (none, r.2.1, s.pos, a)) haccount
    · exact congrArg (fun x => Except.ok (some (repeatValue max r.1), r.2.1, x)) hshown

/-- **A repetition shows what the plain loop shows**, if it binds nothing: the same value in the
same scope at the same position, the same failure, or the same error. The results of applications
may be kept or not, and the rules may be left-recursive. -/
theorem Expr.eval_repeated_shown (keep : Bool) (registry : Registry) (limit depth : Nat) {e : Expr}
    (he : boundBy e.subexprs = []) (min : Nat) (max : Option Nat) (ctx : Context) (scope : Scope)
    {st : State Furthest} (h : st.Sound (Books.blank Furthest) ctx.frame) {fuel : Nat}
    (hfuel : ctx.frame.input.size - st.pos + min < fuel) :
    let apply : Applier Furthest := applyDepth (memoized keep) registry limit depth
    let plain := plainRepeat (e.eval apply registry ctx) min max fuel scope st
    plain.map Reply.shown =
        ((repeated e min max).eval apply registry ctx scope st).map Reply.shown ∧
      plain ≠ .error .exhausted := by
  intro apply plain
  have hb := eval_repeatable Furthest.joins keep registry limit depth he ctx
  have hshown : plain.map Reply.shown =
      ((repeated e min max).eval apply registry ctx scope st).map Reply.shown := by
    rw [eval]
    exact plainRepeat_shown hb h hfuel
  refine ⟨hshown, fun hplain => ?_⟩
  -- the repetition comes to an end of its own, so the plain loop does
  have hends : Ends _ ((repeated e min max).eval apply registry ctx scope st) :=
    eval_advances (applyDepth_advances keep registry limit depth) (repeated e min max) ctx
      (fun _ _ => trivial) h
  rw [hplain] at hshown
  cases hr : (repeated e min max).eval apply registry ctx scope st with
  | error halt =>
    rw [hr] at hshown hends
    cases hshown
    exact hends rfl
  | ok r =>
    rw [hr] at hshown
    cases hshown

/-- A left-recursive rule that may consume nothing: `tail = tail 'b' / 'a'?`. -/
def tails : Grammar :=
  Draft.freeze
    { name := "Tails"
      rules := [
        { name := "tail"
          body := .choice [.sequence [.app "tail", .literal "b"], .opt (.literal "a")] }] }

/-- Three tails in `ab`, of which two are empty, where no results are kept. -/
theorem Expr.eval_repeated_shown_tails :
    let ctx : Context :=
      { frame := { input := .ofString "ab" }, dispatch := tails, owner := tails }
    let apply : Applier Furthest := applyDepth (memoized false) {} 9 9
    let st : State Furthest := .start Account.empty
    let plain := plainRepeat ((app "tail").eval apply {} ctx) 3 none 6 [] st
    boundBy (app "tail").subexprs = [] ∧ st.Sound (Books.blank Furthest) ctx.frame ∧
      ctx.frame.input.size - st.pos + 3 < 6 ∧
      plain.map Reply.shown =
          ((repeated (app "tail") 3 none).eval apply {} ctx [] st).map Reply.shown ∧
        plain ≠ .error .exhausted ∧
      plain.toOption.bind Reply.value = some (.list [.string "b", .nil, .nil]) := by
  intro ctx apply st plain
  have hsound : st.Sound (Books.blank Furthest) ctx.frame :=
    ⟨trivial, Nat.zero_le _, .empty, trivial⟩
  have hsize : ctx.frame.input.size - st.pos + 3 < 6 := by decide +kernel
  have hbind : boundBy (app "tail").subexprs = [] := rfl
  have hshown := eval_repeated_shown false {} 9 9 hbind 3 none ctx [] hsound hsize
  exact ⟨hbind, hsound, hsize, hshown.1, hshown.2, by decide +kernel⟩

end Packrat
