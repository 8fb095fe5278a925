import Packrat.Proofs.Coupling

/-!
# Evaluation in step

An expression does the same in two matches whose applications of rules are in step.

* `Expr.application?`: what an application means, in one place for all three kinds of application.
* `Calling.eval`: an expression is evaluated in step, if the applications in it are permitted.
* `Calling.runBody`: and so is the body of a rule.
-/

namespace Packrat

namespace Expr

/-- **What an application means** where a rule of `o` runs on behalf of `d`: its arguments, and what
is applied to their values with the grammar in which names are looked up from there on. -/
def application? (d o : Grammar) : Expr → Option (List Action × Except Cause (Grammar × Target))
  | .apply rule args => some (args,
      match d.target? rule with
      | some t => .ok (d, t)
      | none => .error (.unknownRule rule d.name))
  | super rule args => some (args,
      match o.parent.bind fun p => p.target? rule with
      | some t => .ok (d, t)
      | none => .error (.unknownRule rule ("parent of " ++ o.name)))
  | foreign grammar rule args => some (args,
      match o.import? grammar with
      | some g =>
        match g.target? rule with
        | some t => .ok (g, t)
        | none => .error (.unknownRule rule g.name)
      | none => .error (.unknownGrammar grammar))
  | _ => none

/-- Applying a name evaluates the arguments and then applies what the name means. -/
theorem eval_application {φ : Type} [Account φ] {apply : Applier φ} {registry : Registry}
    {ctx : Context} {e : Expr} {args : List Action} {meaning : Except Cause (Grammar × Target)}
    (h : e.application? ctx.dispatch ctx.owner = some (args, meaning)) (scope : Scope)
    (st : State φ) :
    e.eval apply registry ctx scope st =
      Halt.ofAction (Action.evalAll registry scope args) >>= fun values =>
        match meaning with
        | .ok (g, t) => applyTarget apply ctx.frame g t values st >>= fun r =>
            .ok (.ofAnswer scope r)
        | .error c => .error (.fatal c) := by
  cases e with
  | apply rule as =>
    simp only [application?, Option.some.injEq, Prod.mk.injEq] at h
    obtain ⟨rfl, rfl⟩ := h
    simp only [eval]
    congr 1
    funext values
    unfold applyName
    cases ctx.dispatch.target? rule <;> rfl
  | super rule as =>
    simp only [application?, Option.some.injEq, Prod.mk.injEq] at h
    obtain ⟨rfl, rfl⟩ := h
    simp only [eval]
    congr 1
    funext values
    cases ctx.owner.parent.bind fun p => p.target? rule <;> rfl
  | foreign grammar rule as =>
    simp only [application?, Option.some.injEq, Prod.mk.injEq] at h
    obtain ⟨rfl, rfl⟩ := h
    simp only [eval]
    congr 1
    funext values
    unfold applyName
    cases ctx.owner.import? grammar with
    | none => rfl
    | some g => cases hg : g.target? rule <;> simp only [hg] <;> rfl
  | _ => simp [application?] at h

end Expr

theorem Action.evalAll_length {registry : Registry} {scope : Scope} :
    ∀ {as : List Action} {vs : List Value}, evalAll registry scope as = .ok vs →
      vs.length = as.length
  | [], vs, h => by
    simp only [evalAll] at h
    cases h
    rfl
  | a :: as, vs, h => by
    rw [evalAll] at h
    cases ha : eval registry scope a with
    | error c => rw [ha] at h; cases h
    | ok v =>
      cases has : evalAll registry scope as with
      | error c => rw [ha, has] at h; cases h
      | ok ws =>
        rw [ha, has] at h
        cases h
        simp [evalAll_length has]

/-- Actions of a list fail only as one of them does. -/
theorem Action.evalAll_error {registry : Registry} {scope : Scope} {c : Cause} :
    ∀ {as : List Action}, evalAll registry scope as = .error c →
      ∃ a, eval registry scope a = .error c
  | [], h => by
    simp only [evalAll] at h
    cases h
  | a :: as, h => by
    rw [evalAll] at h
    cases ha : eval registry scope a with
    | error c' => rw [ha] at h; cases h; exact ⟨a, ha⟩
    | ok v =>
      cases has : evalAll registry scope as with
      | error c' => rw [ha, has] at h; cases h; exact evalAll_error has
      | ok ws => rw [ha, has] at h; cases h

/-- A reply, with the state apart. -/
def Reply.split {φ : Type} (r : Reply φ) : (Option Value × Scope) × State φ :=
  ((r.value, r.scope), r.state)

namespace Coupling

variable {φ ψ : Type} [Account φ] [Account ψ] (C : Coupling φ ψ)

/-- A coupling of replies. -/
def replies (f : Frame) (s : State φ) (t : State ψ) (m : Except Halt (Reply φ))
    (n : Except Halt (Reply ψ)) : Prop :=
  C.rel f s t (m >>= fun r => .ok r.split) (n >>= fun r => .ok r.split)

variable {C} {f : Frame} {s : State φ} {t : State ψ}

/-- Results of other kinds are put together from one that is coupled. -/
theorem bind_view {ρ σ α β : Type} {m : Except Halt ρ} {n : Except Halt σ} {u : ρ → α × State φ}
    {w : σ → α × State ψ} {j : ρ → Except Halt (β × State φ)} {k : σ → Except Halt (β × State ψ)}
    {p : α × State φ → Except Halt (β × State φ)} {q : α × State ψ → Except Halt (β × State ψ)}
    (h : C.rel f s t (m >>= fun r => .ok (u r)) (n >>= fun r => .ok (w r)))
    (hj : ∀ r, j r = p (u r)) (hk : ∀ r, k r = q (w r))
    (hpq : ∀ a s' t', C.rel f s' t' (p (a, s')) (q (a, t'))) :
    C.rel f s t (m >>= j) (n >>= k) := by
  have hb := C.bind h hpq
  rw [funext hj, funext hk]
  simp only [bind_assoc] at hb
  exact hb

theorem replies_bind {α : Type} {m : Except Halt (Reply φ)} {n : Except Halt (Reply ψ)}
    {j : Reply φ → Except Halt (α × State φ)} {k : Reply ψ → Except Halt (α × State ψ)}
    (h : C.replies f s t m n)
    (hjk : ∀ v scope s' t', C.rel f s' t' (j ⟨v, scope, s'⟩) (k ⟨v, scope, t'⟩)) :
    C.rel f s t (m >>= j) (n >>= k) :=
  bind_view (p := fun r => j ⟨r.1.1, r.1.2, r.2⟩) (q := fun r => k ⟨r.1.1, r.1.2, r.2⟩) h
    (fun _ => rfl) (fun _ => rfl) fun a s' t' => hjk a.1 a.2 s' t'

theorem replies.then {m : Except Halt (Reply φ)} {n : Except Halt (Reply ψ)}
    {j : Reply φ → Except Halt (Reply φ)} {k : Reply ψ → Except Halt (Reply ψ)}
    (h : C.replies f s t m n)
    (hjk : ∀ v scope s' t', C.replies f s' t' (j ⟨v, scope, s'⟩) (k ⟨v, scope, t'⟩)) :
    C.replies f s t (m >>= j) (n >>= k) := by
  have := replies_bind (j := fun r => j r >>= fun r => .ok r.split)
    (k := fun r => k r >>= fun r => .ok r.split) h hjk
  cases m <;> cases n <;> exact this

theorem replies_ofAnswer (scope : Scope) {m : Except Halt (Answer φ)} {n : Except Halt (Answer ψ)}
    (h : C.rel f s t m n) :
    C.replies f s t (m >>= fun r => .ok (.ofAnswer scope r))
      (n >>= fun r => .ok (.ofAnswer scope r)) := by
  have := C.view (fun v => (v, scope)) h
  cases m <;> cases n <;> exact this

theorem replies_rest {v : Option Value} {scope : Scope} :
    C.replies f s t (.ok ⟨v, scope, s⟩) (.ok ⟨v, scope, t⟩) := C.rest

theorem replies_move {v : Option Value} {scope : Scope} {p : Nat} :
    C.replies f s t (.ok ⟨v, scope, s.moveTo p⟩) (.ok ⟨v, scope, t.moveTo p⟩) := C.move

/-- The value of an action is the same in both runs, or both end. -/
theorem ofAction {α β : Type} {r : Except Cause α} {j : α → Except Halt (β × State φ)}
    {k : α → Except Halt (β × State ψ)} (hr : ∀ c, r = .error c → C.halts (.fatal c))
    (hjk : ∀ a, r = .ok a → C.rel f s t (j a) (k a)) :
    C.rel f s t (Halt.ofAction r >>= j) (Halt.ofAction r >>= k) := by
  cases r with
  | error c => exact C.halt (hr c rfl)
  | ok a => exact hjk a rfl

theorem rounds_bind {α : Type} {m : Except Halt (Array Value × Scope × State φ)}
    {n : Except Halt (Array Value × Scope × State ψ)}
    {j : Array Value × Scope × State φ → Except Halt (α × State φ)}
    {k : Array Value × Scope × State ψ → Except Halt (α × State ψ)}
    (h : C.rel f s t (m >>= fun r => .ok ((r.1, r.2.1), r.2.2))
      (n >>= fun r => .ok ((r.1, r.2.1), r.2.2)))
    (hjk : ∀ taken scope s' t', C.rel f s' t' (j (taken, scope, s')) (k (taken, scope, t'))) :
    C.rel f s t (m >>= j) (n >>= k) :=
  bind_view (p := fun r => j (r.1.1, r.1.2, r.2)) (q := fun r => k (r.1.1, r.1.2, r.2)) h
    (fun _ => rfl) (fun _ => rfl) fun a s' t' => hjk a.1 a.2 s' t'

theorem replies_moved {j : State φ → Except Halt (Reply φ)} {k : State ψ → Except Halt (Reply ψ)}
    {p : Nat} (h : ∀ s' t', C.replies f s' t' (j s') (k t')) :
    C.replies f s t (j (s.moveTo p)) (k (t.moveTo p)) :=
  C.bind (m := .ok ((), s.moveTo p)) (n := .ok ((), t.moveTo p))
    (j := fun r => j r.2 >>= fun r => .ok r.split) (k := fun r => k r.2 >>= fun r => .ok r.split)
    C.move fun _ s' t' => h s' t'

/-- Rounds of a repetition are in step, if the body is. -/
theorem repeatRounds (hx : C.halts .exhausted) {one : Run φ} {two : Run ψ}
    (h : ∀ scope s t, C.replies f s t (one scope s) (two scope t)) (min : Nat) (max : Option Nat)
    (fuel : Nat) (taken : Array Value) (scope : Scope) (s : State φ) (t : State ψ) :
    C.rel f s t
      (Packrat.repeatRounds one min max fuel taken scope s >>= fun r =>
        .ok ((r.1, r.2.1), r.2.2))
      (Packrat.repeatRounds two min max fuel taken scope t >>= fun r =>
        .ok ((r.1, r.2.1), r.2.2)) := by
  induction fuel generalizing taken scope s t with
  | zero =>
    unfold Packrat.repeatRounds
    split
    · exact C.rest
    · exact C.halt hx
  | succ fuel ih =>
    unfold Packrat.repeatRounds
    split
    · exact C.rest
    refine C.at_pos fun hpos => ?_
    simp only [bind_assoc]
    refine replies_bind (h scope s t) fun v scope' s' t' => ?_
    cases v with
    | none => exact C.rest
    | some v =>
      refine C.at_pos fun hpos' => ?_
      -- both runs see whether the round took nothing, as they stand at the same positions
      simp only [hpos, hpos']
      split
      · exact C.rest
      · exact ih _ _ _ _

theorem evalRepeat (hx : C.halts .exhausted) {one : Run φ} {two : Run ψ}
    (h : ∀ scope s t, C.replies f s t (one scope s) (two scope t)) (min : Nat) (max : Option Nat)
    (size : Nat) (scope : Scope) (s : State φ) (t : State ψ) :
    C.replies f s t (Packrat.evalRepeat one min max size scope s)
      (Packrat.evalRepeat two min max size scope t) := by
  refine C.at_pos fun hpos => ?_
  -- the bound on the rounds is what is left of the input, the same in both runs
  have hr := repeatRounds hx h min max (size - s.pos + 1) #[] scope s t
  simp only [Packrat.evalRepeat, hpos, bind_assoc] at hr ⊢
  refine rounds_bind hr fun taken scope' s' t' => ?_
  dsimp only
  split
  · exact C.move
  · exact C.rest

theorem evalLookahead {one : Run φ} {two : Run ψ} {negated : Bool} {scope : Scope}
    (h : ∀ s t, C.replies f s t (one scope s) (two scope t)) :
    C.replies f s t (Packrat.evalLookahead one negated scope s)
      (Packrat.evalLookahead two negated scope t) := by
  refine C.at_pos fun hpos => ?_
  unfold Packrat.evalLookahead
  cases negated with
  | false => 
    refine (h s t).then fun v scope' s' t' => ?_
    rw [hpos]
    exact replies_move
  | true =>
    have hn := C.negated (h { s with account := Account.empty } { t with account := Account.empty })
    simp only [bind_assoc, if_true, hpos] at hn ⊢
    -- `negated` is about the account alone; going back to the start is one more step
    have hback := C.bind
      (j := fun r => .ok ((if r.1.1.isSome then none else some Value.nil, r.1.2),
        r.2.moveTo t.pos))
      (k := fun r => .ok ((if r.1.1.isSome then none else some Value.nil, r.1.2),
        r.2.moveTo t.pos))
      hn fun a s' t' => C.move
    simp only [bind_assoc] at hback
    exact hback

/-- A nested match in its parts: the contents, which must be consumed to the end, then the way back
to the frame around them. -/
theorem evalNested_eq {body : Frame → Run φ} {inner : Frame} {scope : Scope} {st : State φ}
    (he : f.enter? st.pos = some inner) :
    (Packrat.evalNested body f scope st >>= fun r => .ok r.split) =
      (((body inner scope (.start st.account) >>= fun r =>
        if r.value.isSome && r.state.pos < inner.input.size then
          .ok ((none, r.scope), r.state.expect inner r.state.pos "end of list")
        else .ok r.split) >>= fun r => .ok (r.1, { st with account := r.2.account })) >>= fun r =>
        .ok (r.1, if r.1.1.isSome then r.2.moveTo (st.pos + 1) else r.2)) := by
  unfold Packrat.evalNested
  simp only [he, bind_assoc]
  congr 1
  funext r
  obtain ⟨v, scope', st'⟩ := r
  cases v with
  | none => rfl
  | some v =>
    by_cases hlt : st'.pos < inner.input.size
    · simp only [hlt, if_true, Option.isSome_some, decide_true, Bool.and_self]
      rfl
    · simp only [hlt, if_false, Option.isSome_some, decide_false, Bool.and_false]
      rfl

/-- A nested match is in step, if the match of the contents is. -/
theorem evalNested {one : Frame → Run φ} {two : Frame → Run ψ} {scope : Scope}
    (h : ∀ inner s t, C.replies inner s t (one inner scope s) (two inner scope t)) :
    C.replies f s t (Packrat.evalNested one f scope s) (Packrat.evalNested two f scope t) := by
  refine C.at_pos fun hpos => ?_
  cases he : f.enter? s.pos with
  | none =>
    have he' : f.enter? t.pos = none := by rw [← hpos]; exact he
    simp only [Packrat.evalNested, he, he']
    exact replies_ofAnswer _ C.reject
  | some inner =>
    rw [evalNested_eq he, evalNested_eq (by rw [← hpos]; exact he)]
    refine C.bind (C.nested he (replies_bind (h inner _ _) fun v scope' s' t' => ?_))
      fun a s' t' => ?_
    · refine C.at_pos fun hpos' => ?_
      simp only [hpos']
      split
      · exact C.expect
      · exact C.rest
    · simp only [hpos]
      split
      · exact C.move
      · exact C.rest

variable {one : Applier φ} {two : Applier ψ} {registry : Registry}
  {permits : Grammar → Target → List Value → Prop} {d o : Grammar}

/-- The applications among some expressions are permitted where a rule of `o` runs on behalf of
`d`. -/
def Permitted (C : Coupling φ ψ) (permits : Grammar → Target → List Value → Prop) (d o : Grammar)
    (es : List Expr) : Prop :=
  ∀ e ∈ es, ∀ as meaning, e.application? d o = some (as, meaning) →
    match meaning with
    | .ok (g, target) => ∀ args : List Value, args.length = as.length → permits g target args
    | .error c => C.halts (.fatal c)

theorem Permitted.inside {e : Expr} {es : List Expr} (h : C.Permitted permits d o (e :: es)) :
    C.Permitted permits d o es :=
  fun x hx => h x (.tail _ hx)

theorem Permitted.left {es fs : List Expr} (h : C.Permitted permits d o (es ++ fs)) :
    C.Permitted permits d o es :=
  fun x hx => h x (List.mem_append_left _ hx)

theorem Permitted.right {es fs : List Expr} (h : C.Permitted permits d o (es ++ fs)) :
    C.Permitted permits d o fs :=
  fun x hx => h x (List.mem_append_right _ hx)

theorem Calling.application (H : C.Calling registry one two permits) {e : Expr} {ctx : Context}
    {scope : Scope} {as : List Action} {meaning : Except Cause (Grammar × Target)}
    (he : e.application? ctx.dispatch ctx.owner = some (as, meaning))
    (h : C.Permitted permits ctx.dispatch ctx.owner [e]) :
    C.replies ctx.frame s t (e.eval one registry ctx scope s)
      (e.eval two registry ctx scope t) := by
  have hm := h e (.head _) as meaning he
  simp only [replies, Expr.eval_application he, bind_assoc]
  refine ofAction (fun c hc => ?_) fun args hargs => ?_
  · obtain ⟨a, ha⟩ := Action.evalAll_error hc
    exact H.action ha
  cases meaning with
  | error c => exact C.halt hm
  | ok gt =>
    have := replies_ofAnswer scope
      (H.target (f := ctx.frame) (s := s) (t := t) (hm args (Action.evalAll_length hargs)))
    simp only [replies, bind_assoc] at this ⊢
    exact this

mutual

/-- **Expressions are evaluated in step**, if their applications are. -/
theorem Calling.eval (H : C.Calling registry one two permits) :
    ∀ (e : Expr) (ctx : Context) {scope : Scope} {s : State φ} {t : State ψ},
      C.Permitted permits ctx.dispatch ctx.owner e.subexprs →
        C.replies ctx.frame s t (e.eval one registry ctx scope s) (e.eval two registry ctx scope t)
  | .any, ctx, scope, s, t, _ => replies_ofAnswer _ C.any
  | .terminal _, ctx, scope, s, t, _ => replies_ofAnswer _ C.exactly
  | .literal _, ctx, scope, s, t, _ => replies_ofAnswer _ C.literal
  | .range _ _, ctx, scope, s, t, _ => replies_ofAnswer _ C.charIf
  | .sequence items, ctx, scope, s, t, h => by
    refine C.at_pos fun hpos => ?_
    simp only [Expr.eval, hpos]
    refine (Calling.evalSequence H items { ctx with sequenceStart := some t.pos } h.inside).then
      fun v scope' s' t' => ?_
    cases v with
    -- a failing sequence goes back to where it started
    | none => exact replies_move
    | some v => exact replies_rest
  | .choice alternatives, ctx, scope, s, t, h => by
    rw [Expr.eval, Expr.eval]
    exact Calling.evalChoice H alternatives ctx h.inside
  | .repeated body min max, ctx, scope, s, t, h => by
    rw [Expr.eval, Expr.eval]
    refine Coupling.evalRepeat H.loop (fun scope' s' t' => ?_) min max _ scope s t
    exact Calling.eval H body ctx h.inside
  | .lookahead negated body, ctx, scope, s, t, h => by
    rw [Expr.eval, Expr.eval]
    exact Coupling.evalLookahead fun _ _ => Calling.eval H body ctx h.inside
  | .apply rule args, ctx, scope, s, t, h => H.application rfl h
  | .super rule args, ctx, scope, s, t, h => H.application rfl h
  | .foreign grammar rule args, ctx, scope, s, t, h => H.application rfl h
  | .bind name body, ctx, scope, s, t, h => by
    rw [Expr.eval, Expr.eval]
    refine (Calling.eval H body ctx h.inside).then fun v scope' s' t' => ?_
    cases v with
    | none => exact replies_rest
    | some v => exact replies_rest
  | .action a, ctx, scope, s, t, h => by
    rw [Expr.eval, Expr.eval, replies]
    simp only [bind_assoc]
    exact ofAction (fun c hc => H.action hc) fun v _ => C.rest
  | .guard a, ctx, scope, s, t, h => by
    refine C.at_pos fun hpos => ?_
    rw [Expr.eval, Expr.eval]
    simp only [bind_assoc, hpos]
    refine ofAction (fun c hc => H.action hc) fun v _ => ?_
    split
    · exact C.rest
    · exact C.expect
  | .nested body, ctx, scope, s, t, h => by
    rw [Expr.eval, Expr.eval]
    exact Coupling.evalNested fun inner _ _ =>
      Calling.eval H body { ctx with frame := inner, sequenceStart := none } h.inside
  | .capture body, ctx, scope, s, t, h => by
    refine C.at_pos fun hpos => ?_
    rw [Expr.eval, Expr.eval]
    refine (Calling.eval H body ctx h.inside).then fun v scope' s' t' => ?_
    refine C.at_pos fun hpos' => ?_
    simp only [hpos, hpos']
    exact C.rest

theorem Calling.evalSequence (H : C.Calling registry one two permits) :
    ∀ (es : List Expr) (ctx : Context) {last : Value} {scope : Scope} {s : State φ} {t : State ψ},
      C.Permitted permits ctx.dispatch ctx.owner (Expr.subexprsAll es) →
        C.replies ctx.frame s t (Expr.evalSequence one registry es ctx last scope s)
          (Expr.evalSequence two registry es ctx last scope t)
  | [], ctx, last, scope, s, t, _ => by
    rw [Expr.evalSequence, Expr.evalSequence]
    exact replies_rest
  | e :: es, ctx, last, scope, s, t, h => by
    rw [Expr.evalSequence, Expr.evalSequence]
    refine (Calling.eval H e ctx h.left).then
      fun v scope' s' t' => ?_
    cases v with
    | none => exact replies_rest
    | some v => exact Calling.evalSequence H es ctx h.right

theorem Calling.evalChoice (H : C.Calling registry one two permits) :
    ∀ (es : List Expr) (ctx : Context) {scope : Scope} {s : State φ} {t : State ψ},
      C.Permitted permits ctx.dispatch ctx.owner (Expr.subexprsAll es) →
        C.replies ctx.frame s t (Expr.evalChoice one registry es ctx scope s)
          (Expr.evalChoice two registry es ctx scope t)
  | [], ctx, scope, s, t, _ => by
    rw [Expr.evalChoice, Expr.evalChoice]
    exact replies_rest
  | e :: es, ctx, scope, s, t, h => by
    refine C.at_pos fun hpos => ?_
    rw [Expr.evalChoice, Expr.evalChoice]
    refine (Calling.eval H e ctx h.left).then
      fun v scope' s' t' => ?_
    cases v with
    | some v => exact replies_rest
    | none =>
      -- the next alternative starts where this one did
      rw [hpos]
      exact replies_moved fun _ _ => Calling.evalChoice H es ctx h.right

end

/-- The body of a rule runs in step, if its applications do. -/
theorem Calling.runBody (H : C.Calling registry one two permits) {rule : Rule} {args : List Value}
    (h : C.Permitted permits d o rule.body.subexprs) :
    C.rel f s t (Packrat.runBody one registry f d o rule args s)
      (Packrat.runBody two registry f d o rule args t) :=
  replies_bind (Calling.eval H rule.body { frame := f, dispatch := d, owner := o } h)
    fun _ _ _ _ => C.rest

end Coupling

end Packrat
