import Packrat.Proofs.Lockstep

/-!
# The machine mirrors the matcher

The machine evaluates expressions, applies rules and does whole runs as the matcher does.

The proof follows the recursion of the machine: on the depth that is left for rules, then on the
expression. For the two loops it is on the rounds that the matcher allows them. The machine has no
such bound, but the matcher advances, and so the machine comes to the end of a loop within those
rounds.

* `Machine.evalRounds_mirrors`, `Machine.growSeed_mirrors`: the two loops.
* `Machine.evalNoted_mirrors`: evaluation, if rules are applied in lockstep.
* `Machine.applyRule_mirrors`: rules are applied in lockstep, whatever depth is left.
* `Machine.run_mirrors`: whole runs.
-/

namespace Packrat

variable {φ : Type} [Account φ]

/-! ### Evaluation, given how rules are applied -/

/-- What a repetition that began at `start` makes of its rounds. -/
def concludeRepeat (min : Nat) (max : Option Nat) (start : Nat)
    (r : Array Value × Scope × State φ) : Reply φ :=
  if r.1.size < min then { value := none, scope := r.2.1, state := r.2.2.moveTo start }
  else { value := some (repeatValue max r.1), scope := r.2.1, state := r.2.2 }

omit [Account φ] in
theorem evalRepeat_eq (body : Run φ) (min : Nat) (max : Option Nat) (size : Nat) (scope : Scope)
    (st : State φ) :
    evalRepeat body min max size scope st =
      repeatRounds body min max (size - st.pos + 1) #[] scope st >>= fun r =>
        .ok (concludeRepeat min max st.pos r) := by
  unfold evalRepeat concludeRepeat
  dsimp only
  congr 1
  funext r
  split <;> rfl

theorem Halt.bind_ofAction_ok {α β : Type} (a : α) (k : α → Except Halt β) :
    (Halt.ofAction (.ok a) >>= k) = k a := rfl

/-- The machine evaluates an expression like the matcher, while so many rules are under way. -/
def Expr.Mirrored (e : Engine) (apply : Applier φ) (depth : Nat) (expr : Expr) : Prop :=
  ∀ (env : Env) (m : Machine φ), m.Orderly e.options.maxDepth → m.depth = depth →
    m.MirrorsReply e.options.maxDepth env
      (expr.eval apply e.registry (env.context m.frame) env.scope m.state)
      fun n => Machine.eval e n expr env m

namespace Machine

variable {e : Engine} {apply : Applier φ} {depth : Nat} {m m' : Machine φ} {env : Env}

/-- Notes make no difference. -/
theorem eval_mirrors_of_noted {expr : Expr}
    (h : ∀ (env : Env) (m : Machine φ), m.Orderly e.options.maxDepth → m.depth = depth →
      m.MirrorsReply e.options.maxDepth env
        (expr.eval apply e.registry (env.context m.frame) env.scope m.state)
        fun n => evalNoted e n expr env m) :
    expr.Mirrored e apply depth := by
  intro env m hm hd
  refine .tick ?_
  simp only [eval]
  have hnote : m.Reaches e.options.maxDepth m.state (m.note (.visit m.toConfiguration)) := .note hm
  exact (h env (m.note _) hm hd).trans hnote

section Bind

variable {expr : Expr} {α β : Type} {ok : α → Option Value → β → Prop} {stop : β → Prop}
  {k : Reply φ → Except Halt α} {k' : Nat → Verdict × Env × Machine φ → Option (Verdict × β)}

/-- **After an evaluation** the machine goes on from where the matcher does, which has advanced; or
it stops with the start of the running sequence as it was. -/
theorem eval_bind (env : Env) (ha : apply.Advances (Books.blank φ)) (h : expr.Mirrored e apply depth)
    (hm : m.Orderly e.options.maxDepth) (hd : m.depth = depth)
    (hok : ∀ v scope st m', Advance (Books.blank φ) m.frame m.state v st →
      m.Reaches e.options.maxDepth st m' →
        Mirrors ok stop (k ⟨v, scope, st⟩) fun n => k' n (.ok v, { env with scope }, m'))
    (hstop : ∀ halt env' m' st, env'.sequenceStart = env.sequenceStart →
      m.Reaches e.options.maxDepth st m' →
        Mirrors ok stop (.error halt) fun n => k' n (.error (.halt halt), env', m')) :
    Mirrors ok stop
      (expr.eval apply e.registry (env.context m.frame) env.scope m.state >>= k)
      fun n => eval e n expr env m >>= k' n := by
  have hadv : Ends (fun r => Advance (Books.blank φ) m.frame m.state r.value r.state)
      (expr.eval apply e.registry (env.context m.frame) env.scope m.state) :=
    Expr.eval_advances ha expr (env.context m.frame) (fun _ _ => trivial) hm.sound
  refine ((h env m hm hd).and_ends hadv).bind ?_ ?_
  · rintro ⟨_, scope, st⟩ v ⟨_, m'⟩ ⟨hadv, rfl, rfl, hreach⟩
    exact hok v scope st m' hadv hreach
  · rintro halt ⟨env', m'⟩ ⟨henv, st, hreach⟩
    exact hstop halt env' m' st henv hreach

/-- The same where the machine stops at once if the evaluation does. -/
theorem eval_then {k : Reply φ → Except Halt (Reply φ)}
    {k' : Nat → Verdict × Env × Machine φ → Option (Verdict × Env × Machine φ)} (env : Env)
    (ha : apply.Advances (Books.blank φ)) (h : expr.Mirrored e apply depth)
    (hm : m.Orderly e.options.maxDepth) (hd : m.depth = depth)
    (hstop : ∀ n fault env' m', k' n (.error fault, env', m') = some (.error fault, env', m'))
    (hok : ∀ v scope st m', Advance (Books.blank φ) m.frame m.state v st →
      m.Reaches e.options.maxDepth st m' →
        m.MirrorsReply e.options.maxDepth env (k ⟨v, scope, st⟩)
          fun n => k' n (.ok v, { env with scope }, m')) :
    m.MirrorsReply e.options.maxDepth env
      (expr.eval apply e.registry (env.context m.frame) env.scope m.state >>= k)
      fun n => eval e n expr env m >>= k' n := by
  refine eval_bind env ha h hm hd hok ?_
  intro halt env' m' st henv hreach
  simp only [hstop]
  exact ⟨(env', m'), .pure _, henv, st, hreach⟩

end Bind

theorem concludeRounds_mirrors {limit : Nat} {scope : Scope} {st : State φ} {min : Nat}
    {max : Option Nat} {start : Nat} {taken : Array Value} (h : m.Reaches limit st m') :
    m.MirrorsReply limit env (.ok (concludeRepeat min max start (taken, scope, st)))
      fun _ => some (Env.reply { env with scope } (m'.concludeRounds min max start taken)) := by
  unfold concludeRounds concludeRepeat
  dsimp only
  split
  · exact ⟨none, _, .pure _, rfl, rfl, h.moveTo⟩
  · exact ⟨some _, _, .pure _, rfl, rfl, h⟩

/-- **Rounds of a repetition.** The matcher allows for as many as are left of the input and one
more; the machine needs no more, since it goes further on with every round. -/
theorem evalRounds_mirrors {body : Expr} (ha : apply.Advances (Books.blank φ))
    (hb : body.Mirrored e apply depth) (min : Nat) (max : Option Nat) (start fuel : Nat)
    (taken : Array Value) (env : Env) (m : Machine φ) (hm : m.Orderly e.options.maxDepth)
    (hd : m.depth = depth) (hfuel : m.level.input.size - m.level.pos < fuel) :
    m.MirrorsReply e.options.maxDepth env
      (repeatRounds (body.eval apply e.registry (env.context m.frame)) min max fuel taken env.scope
        m.state >>= fun r => .ok (concludeRepeat min max start r))
      fun n => evalRounds e n body min max start taken env m := by
  induction fuel generalizing taken env m with
  | zero => omega
  | succ fuel ih =>
    refine .tick ?_
    unfold repeatRounds
    simp only [evalRounds]
    split
    · exact concludeRounds_mirrors .stay
    simp only [bind_assoc]
    refine eval_then env ha hb hm hd (fun _ _ _ _ => rfl) ?_
    intro v scope st m' hadv hreach
    cases v with
    | none => exact concludeRounds_mirrors hreach
    | some v =>
      dsimp only
      by_cases hpos : st.pos = m.state.pos
      · have hpos' : m'.level.pos = m.level.pos := hreach.pos.trans hpos
        simp only [if_pos hpos, if_pos hpos']
        exact concludeRounds_mirrors hreach
      · have hpos' : m'.level.pos ≠ m.level.pos := hreach.pos ▸ hpos
        simp only [if_neg hpos, if_neg hpos']
        have hlt : m.level.pos < m'.level.pos := by
          rw [hreach.pos]
          exact Nat.lt_of_le_of_ne hadv.forward (Ne.symm hpos)
        have hle : m'.level.pos ≤ m.level.input.size := by
          rw [hreach.pos]
          exact hadv.sound.within
        have hnote := hreach.trans (.note (n := .round _ _ _) ⟨hlt, hle⟩)
        rw [hreach.state] at hnote
        have hrest := ih (taken.push v) { env with scope } _ (hnote.orderly hm hadv.sound)
          (hnote.depth.trans hd) ?_
        · rw [hnote.frame, hnote.state] at hrest
          exact hrest.trans hnote
        · rw [hnote.now]
          rw [hreach.pos] at hlt hle
          show m.level.input.size - st.pos < fuel
          omega

/-- A lookahead comes back to where it was. -/
theorem lookahead_mirrors {body : Expr} (negated : Bool) (ha : apply.Advances (Books.blank φ))
    (hb : body.Mirrored e apply depth) (hm : m.Orderly e.options.maxDepth) (hd : m.depth = depth) :
    m.MirrorsReply e.options.maxDepth env
      (evalLookahead (body.eval apply e.registry (env.context m.frame)) negated env.scope m.state)
      fun n => evalNoted e n (.lookahead negated body) env m := by
  refine .tick ?_
  cases negated with
  | false =>
    simp only [evalNoted]
    refine eval_then env ha hb hm hd (fun _ _ _ _ => rfl) ?_
    intro v scope st m' _ hreach
    exact ⟨v, _, .pure _, rfl, rfl, hreach.moveTo⟩
  | true =>
    simp only [evalNoted]
    -- what is missed inside is kept apart
    have hm' : Configuration.Orderly e.options.maxDepth
        { m.toConfiguration with account := Account.empty } :=
      ⟨⟨trivial, hm.sound.within, hm.sound.table, trivial⟩, hm.depth⟩
    refine eval_bind (m := { m with account := Account.empty }) env ha hb hm' hd ?_ ?_
    · intro v scope st m' _ hreach
      exact ⟨_, _, .pure _, rfl, rfl, by simp only [moveTo, hreach.now]; rfl, hreach.notes⟩
    · intro halt env' m' st henv hreach
      exact ⟨_, .pure _, henv, { st with pos := _, account := _ },
        by simp only [moveTo, hreach.now]; rfl, hreach.notes⟩

/-- An element is left as it was entered, but for what was missed inside. -/
theorem Reaches.pop {limit : Nat} {contents : Input} {tag : Option String} {st : State φ}
    (h : (m.push contents tag).Reaches limit st m') :
    m.Reaches limit { m.state with account := st.account } m'.pop := by
  have hparents : m'.parents = m.level :: m.parents := by
    rw [h.now]
    rfl
  refine ⟨?_, ?_⟩
  · unfold Machine.pop
    rw [hparents]
    simp only [h.now]
    rfl
  · unfold Machine.pop
    rw [hparents]
    exact h.notes

/-- All of an element must be consumed. -/
theorem nested_mirrors {body : Expr} (ha : apply.Advances (Books.blank φ))
    (hb : body.Mirrored e apply depth) (hm : m.Orderly e.options.maxDepth) (hd : m.depth = depth) :
    m.MirrorsReply e.options.maxDepth env
      (evalNested (fun inner => body.eval apply e.registry
          { env.context m.frame with frame := inner, sequenceStart := none })
        m.frame env.scope m.state)
      fun n => evalNoted e n (.nested body) env m := by
  refine .tick ?_
  simp only [evalNoted]
  have hframe := m.enter?_eq
  cases he : m.level.input.enter? m.level.pos with
  | none =>
    have hnone : m.frame.enter? m.state.pos = none := by rw [m.state_pos, hframe, he]; rfl
    simp only [evalNested, hnone]
    exact (answer_mirrors _).reply
  | some inner =>
    obtain ⟨contents, tag⟩ := inner
    have hsome : m.frame.enter? m.state.pos = some (m.push contents tag).frame := by
      rw [m.state_pos, hframe, he]
      rfl
    have hm' : (m.push contents tag).Orderly e.options.maxDepth := ⟨hm.sound.start hsome, hm.depth⟩
    simp only [evalNested, hsome]
    refine eval_bind { env with sequenceStart := none } ha hb hm' hd ?_ ?_
    · intro v scope st m' hadv hreach
      cases v with
      | none => exact ⟨none, _, .pure _, rfl, rfl, hreach.pop⟩
      | some v =>
        dsimp only
        by_cases hlt : st.pos < (m.push contents tag).frame.input.size
        · have hlt' : m'.level.pos < m'.level.input.size := by
            rw [hreach.now]
            exact hlt
          simp only [if_pos hlt, closeLevel, if_pos hlt', hreach.state, hreach.frame]
          exact ⟨none, _, .pure _, rfl, rfl, (hreach.trans .put).pop⟩
        · have hlt' : ¬ m'.level.pos < m'.level.input.size := by
            rw [hreach.now]
            exact hlt
          simp only [if_neg hlt, closeLevel, if_neg hlt']
          exact ⟨some v, _, .pure _, rfl, rfl, hreach.pop.moveTo⟩
    · intro halt env' m' st henv hreach
      exact ⟨_, .pure _, rfl, _, hreach.pop⟩

/-- The parent's version of a rule is applied alike. -/
theorem super_mirrors (rule : String) (args : List Action) (hr : apply.Mirrored e depth)
    (hm : m.Orderly e.options.maxDepth) (hd : m.depth = depth) :
    m.MirrorsReply e.options.maxDepth env
      ((Expr.super rule args).eval apply e.registry (env.context m.frame) env.scope m.state)
      fun n => evalNoted e n (.super rule args) env m := by
  refine .tick ?_
  simp only [evalNoted, Expr.eval]
  cases Action.evalAll e.registry env.scope args with
  | error c => exact (halt_mirrors c).reply
  | ok values =>
    rw [Halt.bind_ofAction_ok]
    dsimp only [Env.context, Grammar.target?]
    cases env.owner.parent with
    | none => exact (halt_mirrors _).reply
    | some parent =>
      dsimp only [Option.bind]
      cases parent.resolve? rule with
      | some found =>
        dsimp only
        rw [applyTarget_rule]
        exact (hr env.dispatch found.1 found.2 values m hm hd).reply
      | none =>
        cases Builtin.ofName? rule with
        | none => exact (halt_mirrors _).reply
        | some b =>
          exact (applyBuiltin_mirrors_of hr hm hd fun name rest m' _ hm' hd' =>
            applyNamed_mirrors hr name rest true m' hm' hd').reply

mutual

/-- **The machine evaluates expressions like the matcher**, if it applies rules so. -/
theorem evalNoted_mirrors (ha : apply.Advances (Books.blank φ)) (hr : apply.Mirrored e depth) :
    ∀ (expr : Expr) (env : Env) (m : Machine φ), m.Orderly e.options.maxDepth → m.depth = depth →
      m.MirrorsReply e.options.maxDepth env
        (expr.eval apply e.registry (env.context m.frame) env.scope m.state)
        fun n => evalNoted e n expr env m
  | .any, env, m, hm, hd => by
    refine .tick ?_
    simp only [evalNoted, Expr.eval]
    exact (answer_mirrors (m.frame.any m.state)).reply
  | .terminal v, env, m, hm, hd => by
    refine .tick ?_
    simp only [evalNoted, Expr.eval]
    exact (answer_mirrors (m.frame.exactly v m.state)).reply
  | .literal text, env, m, hm, hd => by
    refine .tick ?_
    simp only [evalNoted, Expr.eval]
    exact (answer_mirrors (m.frame.literal text m.state)).reply
  | .range low high, env, m, hm, hd => by
    refine .tick ?_
    simp only [evalNoted, Expr.eval]
    exact (answer_mirrors _).reply
  | .sequence items, env, m, hm, hd => by
    refine .tick ?_
    simp only [evalNoted, Expr.eval]
    refine (evalItems_mirrors ha hr items .nil { env with sequenceStart := some m.level.pos } m hm
      hd).bind ?_ ?_
    · rintro ⟨_, scope, st⟩ v ⟨_, m'⟩ ⟨rfl, rfl, hreach⟩
      cases v with
      | none => exact ⟨none, _, .pure _, rfl, rfl, hreach.moveTo⟩
      | some v => exact ⟨some v, _, .pure _, rfl, rfl, hreach⟩
    · rintro halt ⟨env', m'⟩ ⟨_, st, hreach⟩
      exact ⟨_, .pure _, rfl, _, hreach.moveTo⟩
  | .choice alternatives, env, m, hm, hd => by
    refine .tick ?_
    simp only [evalNoted, Expr.eval]
    exact evalAlternatives_mirrors ha hr alternatives m.level.pos env m hm hd rfl
  | .repeated body min max, env, m, hm, hd => by
    have hb := eval_mirrors_of_noted (evalNoted_mirrors ha hr body)
    refine .tick ?_
    simp only [evalNoted, Expr.eval]
    rw [evalRepeat_eq]
    exact evalRounds_mirrors ha hb min max _ _ #[] env m hm hd (Nat.lt_succ_self _)
  | .lookahead negated body, env, m, hm, hd => by
    have hb := eval_mirrors_of_noted (evalNoted_mirrors ha hr body)
    rw [Expr.eval]
    exact lookahead_mirrors negated ha hb hm hd
  | .apply rule args, env, m, hm, hd => by
    refine .tick ?_
    simp only [evalNoted, Expr.eval]
    cases Action.evalAll e.registry env.scope args with
    | error c => exact (halt_mirrors c).reply
    | ok values => exact (applyName_mirrors hr env.dispatch rule values hm hd).reply
  | .super rule args, env, m, hm, hd => super_mirrors rule args hr hm hd
  | .foreign grammar rule args, env, m, hm, hd => by
    refine .tick ?_
    simp only [evalNoted, Expr.eval]
    cases Action.evalAll e.registry env.scope args with
    | error c => exact (halt_mirrors c).reply
    | ok values =>
      dsimp only [Env.context]
      cases env.owner.import? grammar with
      | none => exact (halt_mirrors _).reply
      | some imported => exact (applyName_mirrors hr imported rule values hm hd).reply
  | .bind name body, env, m, hm, hd => by
    have hb := eval_mirrors_of_noted (evalNoted_mirrors ha hr body)
    refine .tick ?_
    simp only [evalNoted, Expr.eval]
    refine eval_then env ha hb hm hd (fun _ _ _ _ => rfl) ?_
    intro v scope st m' _ hreach
    cases v with
    | none => exact ⟨none, _, .pure _, rfl, rfl, hreach⟩
    | some v => exact ⟨some v, _, .pure _, rfl, rfl, hreach⟩
  | .action a, env, m, hm, hd => by
    refine .tick ?_
    simp only [evalNoted, Expr.eval]
    cases a.eval e.registry env.scope with
    | error c => exact (halt_mirrors c).reply
    | ok v => exact ⟨some v, (env, m), .pure _, rfl, rfl, .stay⟩
  | .guard a, env, m, hm, hd => by
    refine .tick ?_
    simp only [evalNoted, Expr.eval]
    cases a.eval e.registry env.scope with
    | error c => exact (halt_mirrors c).reply
    | ok v =>
      rw [Halt.bind_ofAction_ok]
      by_cases hv : v.isTruthy
      · simp only [if_pos hv]
        exact ⟨some v, (env, m), .pure _, rfl, rfl, .stay⟩
      · simp only [if_neg hv]
        exact ⟨none, _, .pure _, rfl, rfl, .put⟩
  | .nested body, env, m, hm, hd => by
    have hb := eval_mirrors_of_noted (evalNoted_mirrors ha hr body)
    rw [Expr.eval]
    exact nested_mirrors ha hb hm hd
  | .capture body, env, m, hm, hd => by
    have hb := eval_mirrors_of_noted (evalNoted_mirrors ha hr body)
    refine .tick ?_
    simp only [evalNoted, Expr.eval]
    refine eval_then env ha hb hm hd (fun _ _ _ _ => rfl) ?_
    intro v scope st m' hadv hreach
    cases v with
    | none => exact ⟨none, _, .pure _, rfl, rfl, hreach⟩
    | some v =>
      have hslice : m'.sliceFrom m.level.pos =
          .ok (some (m.level.input.slice m.level.pos st.pos)) := by
        unfold sliceFrom
        rw [hreach.now]
        exact if_pos ⟨hadv.forward, hadv.sound.within⟩
      simp only [hslice]
      exact ⟨some _, _, .pure _, rfl, rfl, hreach⟩

theorem evalItems_mirrors (ha : apply.Advances (Books.blank φ)) (hr : apply.Mirrored e depth) :
    ∀ (items : List Expr) (last : Value) (env : Env) (m : Machine φ),
      m.Orderly e.options.maxDepth → m.depth = depth →
        m.MirrorsReply e.options.maxDepth env
          (Expr.evalSequence apply e.registry items (env.context m.frame) last env.scope m.state)
          fun n => evalItems e n items last env m
  | [], last, env, m, hm, hd => by
    refine .tick ?_
    simp only [evalItems, Expr.evalSequence]
    exact ⟨some last, (env, m), .pure _, rfl, rfl, .stay⟩
  | item :: items, last, env, m, hm, hd => by
    have hitem := eval_mirrors_of_noted (evalNoted_mirrors ha hr item)
    refine .tick ?_
    simp only [evalItems, Expr.evalSequence]
    refine eval_then env ha hitem hm hd (fun _ _ _ _ => rfl) ?_
    intro v scope st m' hadv hreach
    cases v with
    | none => exact ⟨none, _, .pure _, rfl, rfl, hreach⟩
    | some v =>
      have hrest := evalItems_mirrors ha hr items v { env with scope } m'
        (hreach.orderly hm hadv.sound) (hreach.depth.trans hd)
      rw [hreach.frame, hreach.state] at hrest
      exact hrest.trans hreach

theorem evalAlternatives_mirrors (ha : apply.Advances (Books.blank φ))
    (hr : apply.Mirrored e depth) :
    ∀ (alternatives : List Expr) (start : Nat) (env : Env) (m : Machine φ),
      m.Orderly e.options.maxDepth → m.depth = depth → m.level.pos = start →
        m.MirrorsReply e.options.maxDepth env
          (Expr.evalChoice apply e.registry alternatives (env.context m.frame) env.scope m.state)
          fun n => evalAlternatives e n alternatives start env m
  | [], start, env, m, hm, hd, hs => by
    refine .tick ?_
    simp only [evalAlternatives, Expr.evalChoice]
    exact ⟨none, (env, m), .pure _, rfl, rfl, .stay⟩
  | alternative :: alternatives, start, env, m, hm, hd, hs => by
    have hfirst := eval_mirrors_of_noted (evalNoted_mirrors ha hr alternative)
    refine .tick ?_
    simp only [evalAlternatives, Expr.evalChoice]
    refine eval_then env ha hfirst hm hd (fun _ _ _ _ => rfl) ?_
    intro v scope st m' hadv hreach
    cases v with
    | some v => exact ⟨some v, _, .pure _, rfl, rfl, hreach⟩
    | none =>
      -- the next alternative starts where this one did
      have hback : m.Reaches e.options.maxDepth (st.moveTo start) (m'.moveTo start) :=
        hreach.moveTo
      have hsound : (st.moveTo start).Sound (Books.blank φ) m.frame :=
        hadv.sound.moveTo (hs ▸ hm.sound.within)
      have hrest := evalAlternatives_mirrors ha hr alternatives start { env with scope }
        (m'.moveTo start) (hback.orderly hm hsound) (hback.depth.trans hd) rfl
      rw [hback.frame, hback.state] at hrest
      simp only [Configuration.state_pos, hs]
      exact hrest.trans hback

end

/-! ### Applications through the table -/

section Table

variable {d o : Grammar} {rule : Rule} {args : List Value} (ha : apply.Advances (Books.blank φ))
  (hr : apply.Mirrored e depth)

include ha hr

theorem evalBody_mirrors (hm : m.Orderly e.options.maxDepth) (hd : m.depth = depth) :
    m.MirrorsAnswer e.options.maxDepth (runBody apply e.registry m.frame d o rule args m.state)
      fun n => evalBody e n d o rule args m := by
  have hb := eval_mirrors_of_noted (evalNoted_mirrors ha hr rule.body)
  refine .tick ?_
  unfold runBody
  simp only [evalBody]
  refine eval_bind { dispatch := d, owner := o, scope := .ofParams rule.params args } ha hb hm hd
    ?_ ?_
  · intro v scope st m' _ hreach
    exact ⟨v, m', .pure _, rfl, hreach⟩
  · intro halt env' m' st _ hreach
    exact ⟨m', .pure _, st, hreach⟩

/-- The body run from another state of the frame. -/
theorem evalBody_put_mirrors {st : State φ} (hm : m.Orderly e.options.maxDepth)
    (hd : m.depth = depth) (hs : st.Sound (Books.blank φ) m.frame) :
    Mirrors (fun a v m' => Advance (Books.blank φ) m.frame st a.1 a.2 ∧ v = a.1 ∧
        m.Reaches e.options.maxDepth a.2 m')
      (fun m' => ∃ t, m.Reaches e.options.maxDepth t m')
      (runBody apply e.registry m.frame d o rule args st)
      fun n => evalBody e n d o rule args (m.put st) := by
  have hput : m.Reaches e.options.maxDepth st (m.put st) := .put
  have hbody : (m.put st).MirrorsAnswer e.options.maxDepth
      (runBody apply e.registry (m.put st).frame d o rule args (m.put st).state)
      fun n => evalBody e n d o rule args (m.put st) :=
    evalBody_mirrors ha hr (hput.orderly hm hs) hd
  rw [hput.frame, hput.state] at hbody
  exact (hbody.trans hput).and_ends (runBody_advances ha hs)

omit ha hr in
theorem endGrowth_mirrors {limit mark stop : Nat} {seed : Value} {st : State φ}
    (h : m.Reaches limit st m') (hmark : mark < st.memo.log.size) :
    m.MirrorsAnswer limit (.ok (some seed, st.grown stop mark))
      fun _ => some (m'.endGrowth mark seed stop) := by
  have hmark' : mark < m'.level.memo.log.size := by
    rw [h.now]
    exact hmark
  simp only [endGrowth, if_pos hmark', h.state]
  exact ⟨some seed, _, .pure _, rfl, h.trans .put⟩

/-- **Growth of a seed.** The matcher allows for as many rounds as are left of the input after the
seed and one more; every round but the last ends further on. -/
theorem growSeed_mirrors (d o : Grammar) (rule : Rule) (args : List Value) (spot : Spot)
    (mark fuel : Nat) (seed : Value) (stop : Nat) (m : Machine φ)
    (hm : m.Orderly e.options.maxDepth) (hd : m.depth = depth)
    (hmark : mark < m.level.memo.log.size) (hseed : spot.1 ≤ stop ∧ stop ≤ m.level.input.size)
    (hfuel : m.level.input.size - stop < fuel) :
    m.MirrorsAnswer e.options.maxDepth
      (grow (runBody apply e.registry m.frame d o rule args) spot mark fuel seed stop m.state >>=
        fun r => .ok (some r.1, r.2))
      fun n => growSeed e n d o rule args spot mark seed stop m := by
  induction fuel generalizing seed stop m with
  | zero => omega
  | succ fuel ih =>
    refine .tick ?_
    rw [grow_succ]
    simp only [growSeed, if_pos hmark, bind_assoc]
    refine (evalBody_put_mirrors ha hr hm hd (hm.sound.seeded hseed)).bind ?_ ?_
    · rintro ⟨_, st⟩ v m' ⟨hadv, rfl, hreach⟩
      have hlog : mark < st.memo.log.size :=
        Nat.lt_of_lt_of_le (State.mark_lt_seeded hmark) hadv.log
      cases v with
      | none => exact endGrowth_mirrors hreach hlog
      | some v =>
        dsimp only
        by_cases hlt : stop < st.pos
        · have hle : st.pos ≤ m'.level.input.size := by
            rw [hreach.now]
            exact hadv.sound.within
          simp only [hreach.pos, if_pos hlt]
          have hnote := hreach.trans
            (.note (n := .growth m'.level.input.size stop st.pos) ⟨hlt, hle⟩)
          rw [hreach.state] at hnote
          have hrest := ih v st.pos _ (hnote.orderly hm hadv.sound) (hnote.depth.trans hd)
            (by rw [hnote.now]; exact hlog) ⟨by omega, hle⟩ ?_
          · rw [hnote.frame, hnote.state] at hrest
            exact hrest.trans hnote
          · rw [hnote.now]
            show m.level.input.size - st.pos < fuel
            have hle' : st.pos ≤ m.level.input.size := hadv.sound.within
            omega
        · simp only [hreach.pos, if_neg hlt]
          exact endGrowth_mirrors hreach hlog
    · rintro halt m' hstop
      exact ⟨m', .pure _, hstop⟩

/-- **An application through the table.** -/
theorem applyMemoized_mirrors (hm : m.Orderly e.options.maxDepth) (hd : m.depth = depth) :
    m.MirrorsAnswer e.options.maxDepth
      (memoized e.options.memoize m.frame (rule.call d o args)
        (runBody apply e.registry m.frame d o rule args) m.state)
      fun n => applyMemoized e n d o rule args m := by
  refine .tick ?_
  simp only [applyMemoized]
  generalize rule.call d o args = call
  cases hg : m.level.memo.get? (m.level.pos, call) with
  | some entry =>
    cases entry with
    | active met =>
      rw [memoized_of_active hg]
      exact answer_mirrors (none, _)
    | done v stop a =>
      rw [memoized_of_done hg]
      exact answer_mirrors (v, _)
  | none =>
    rw [memoized_of_none hg]
    unfold ripened
    simp only [bind_assoc]
    refine (evalBody_put_mirrors ha hr hm hd hm.sound.entered).bind ?_ ?_
    · rintro ⟨_, st⟩ v m' ⟨hadv, rfl, hreach⟩
      cases v with
      | none =>
        simp only [hreach.state]
        exact ⟨none, _, .pure _, rfl, hreach.trans .put⟩
      | some v =>
        simp only [hreach.memo, hreach.pos]
        by_cases hl : st.memo.isLeftRecursive (m.state.pos, call) = true
        · have hl' : st.memo.isLeftRecursive (m.level.pos, call) = true := hl
          simp only [if_pos hl, if_pos hl']
          -- the value is a seed, which grows from where the body ended
          have hlog := hadv.log
          rw [State.size_log_entered] at hlog
          have hgrow := growSeed_mirrors ha hr d o rule args (m.level.pos, call) m.level.memo.mark
            (m'.level.input.size - st.pos + 1) v st.pos m' (hreach.orderly hm hadv.sound)
            (hreach.depth.trans hd) (by rw [hreach.memo]; exact hlog)
            ⟨hadv.forward, by rw [hreach.now]; exact hadv.sound.within⟩ (Nat.lt_succ_self _)
          rw [hreach.frame, hreach.state] at hgrow
          have hsize : m'.level.input.size = m.frame.input.size := by rw [hreach.now]; rfl
          rw [hsize] at hgrow
          refine (hgrow.trans hreach).bind ?_ ?_
          · rintro ⟨_, t⟩ w m'' ⟨rfl, hreach'⟩
            simp only [hreach'.state]
            exact ⟨w, _, .pure _, rfl, hreach'.trans .put⟩
          · rintro halt m'' hstop
            exact ⟨m'', .pure _, hstop⟩
        · have hl' : ¬ st.memo.isLeftRecursive (m.level.pos, call) = true := hl
          simp only [if_neg hl, if_neg hl', hreach.state]
          exact ⟨some v, _, .pure _, rfl, hreach.trans .put⟩
    · rintro halt m' hstop
      exact ⟨m', .pure _, hstop⟩

end Table

/-- One rule less is under way when an application is over. -/
theorem MirrorsAnswer.undeepen {limit : Nat} {model : Except Halt (Answer φ)}
    {run : Nat → Option (Verdict × Machine φ)}
    (h : MirrorsAnswer limit { m with depth := m.depth + 1 } model run) :
    m.MirrorsAnswer limit model
      fun n => run n >>= fun x => some (x.1, { x.2 with depth := x.2.depth - 1 }) := by
  have hback {st : State φ} {m' : Machine φ}
      (hreach : Reaches limit { m with depth := m.depth + 1 } st m') :
      m.Reaches limit st { m' with depth := m'.depth - 1 } :=
    ⟨by simp only [hreach.now]; rfl, hreach.notes⟩
  rw [← bind_pure model]
  refine h.bind ?_ ?_
  · rintro a v m' ⟨hv, hreach⟩
    exact ⟨v, _, .pure _, hv, hback hreach⟩
  · rintro halt m' ⟨st, hreach⟩
    exact ⟨_, .pure _, st, hback hreach⟩

/-- **The machine applies rules like the matcher.** The induction is on the depth that is left. -/
theorem applyRule_mirrors (e : Engine) (left depth : Nat) (h : depth + left = e.options.maxDepth) :
    (applyDepth (memoized e.options.memoize) e.registry e.options.maxDepth left :
      Applier φ).Mirrored e depth := by
  induction left generalizing depth with
  | zero =>
    intro d o rule args m hm hd
    refine .tick ?_
    simp only [applyRule]
    rw [Target.checkCount_rule]
    by_cases hc : args.length = rule.params.length
    · have hlimit : e.options.maxDepth ≤ m.depth := by omega
      simp only [if_pos hc, if_pos hlimit]
      exact halt_mirrors _
    · simp only [if_neg hc]
      exact halt_mirrors _
  | succ left ih =>
    intro d o rule args m hm hd
    refine .tick ?_
    simp only [applyRule]
    rw [Target.checkCount_rule]
    by_cases hc : args.length = rule.params.length
    · have hlimit : m.depth + 1 ≤ e.options.maxDepth := by omega
      simp only [if_pos hc, if_neg (Nat.not_le.2 hlimit)]
      have hm' : Configuration.Orderly e.options.maxDepth
          { m.toConfiguration with depth := m.depth + 1 } := ⟨hm.sound, hlimit⟩
      exact (applyMemoized_mirrors (applyDepth_advances _ _ _ _) (ih (m.depth + 1) (by omega)) hm'
        rfl).undeepen
    · simp only [if_neg hc]
      exact halt_mirrors _

theorem orderly_start (limit : Nat) (input : Input) :
    (start input (Account.empty : φ)).Orderly limit :=
  ⟨⟨trivial, Nat.zero_le _, .empty, trivial⟩, Nat.zero_le _⟩

/-- **A whole run of the machine** ends like a run of the engine, with notes that are all fine. -/
theorem run_mirrors (e : Engine) (g : Grammar) (rule : String) (input : Input) (args : List Value)
    (toEnd : Bool) :
    ∃ m, Converges (fun n => run e n g rule input args toEnd)
        ((e.run g rule input args toEnd).mapError .halt, m) ∧
      ∀ n ∈ m.notes, n.Fine e.options.maxDepth := by
  have hname : (start input (Account.empty : Furthest)).MirrorsAnswer e.options.maxDepth
      (applyName e.applier { input } g rule args (.start Account.empty))
      fun n => applyNamed e n g rule args false (start input Account.empty) :=
    applyName_mirrors (applyRule_mirrors e e.options.maxDepth 0 (Nat.zero_add _)) g rule args
      (orderly_start _ input) rfl
  rw [Engine.run_eq]
  unfold Engine.start
  cases hs : applyName (φ := Furthest) e.applier { input } g rule args (.start Account.empty) with
  | error halt =>
    rw [hs] at hname
    obtain ⟨m, hconv, st, hreach⟩ := hname
    obtain ⟨new, hnew, hfine⟩ := hreach.notes
    refine ⟨m, hconv.bind (.pure _), fun n hn => hfine n ?_⟩
    simpa [hnew, start] using hn
  | ok a =>
    rw [hs] at hname
    obtain ⟨v, st⟩ := a
    obtain ⟨_, m, hconv, rfl, hreach⟩ := hname
    obtain rfl : m.state = st := hreach.state
    obtain ⟨new, hnew, hfine⟩ := hreach.notes
    refine ⟨m, hconv.bind (.pure _), fun n hn => hfine n ?_⟩
    simpa [hnew, start] using hn

end Machine

end Packrat
