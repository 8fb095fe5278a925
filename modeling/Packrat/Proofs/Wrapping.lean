import Packrat.Proofs.Congruence
import Packrat.Proofs.Kinds
import Packrat.Proofs.Straight

/-!
# Wrappers of one element

A sequence of one item does what the item does, and a choice of one alternative what the alternative
does. That takes two things. A wrapper goes back to its start if what it wraps fails, which has gone
back by itself. And a sequence that runs is where the guards in it fail, which is a matter of the
account of failures and of nothing else.

* `Expr.stripped`: an expression without wrappers of one element.
* `Expr.eval_retreats`: an expression that fails has gone back to its start.
* `Expr.eval_sequenceStart`: where a sequence started matters to accounts only.
* `Expr.eval_stripped`: wrappers of one element do nothing.
-/

namespace Packrat

namespace Expr

mutual

/-- **An expression without wrappers of one element**: in place of a sequence of one item there is
the item, and in place of a choice of one alternative the alternative. -/
def stripped : Expr → Expr
  | sequence items => unwrapped sequence (strippedAll items)
  | choice alternatives => unwrapped choice (strippedAll alternatives)
  | repeated body min max => repeated (stripped body) min max
  | lookahead negated body => lookahead negated (stripped body)
  | bind name body => bind name (stripped body)
  | nested body => nested (stripped body)
  | capture body => capture (stripped body)
  | e => e

/-- `stripped` on the expressions of a list. -/
def strippedAll : List Expr → List Expr
  | [] => []
  | e :: es => stripped e :: strippedAll es

end

end Expr

variable {φ : Type} [Account φ]

/-! ### A failure goes back -/

/-- **A step that goes back** to `start` if it fails. -/
def Retreats (start : Nat) (m : Except Halt (Answer φ)) : Prop :=
  Meets (fun _ => True) (fun r => r.1 = none → r.2.pos = start) m

/-- An evaluation that goes back to `start` if it fails. -/
def Reply.Retreats (start : Nat) (m : Except Halt (Reply φ)) : Prop :=
  Meets (fun _ => True) (fun r => r.value = none → r.state.pos = start) m

/-- A way of applying rules that goes back where it fails. -/
def Applier.Retreats (apply : Applier φ) : Prop :=
  ∀ f d o r args st, Packrat.Retreats st.pos (apply f d o r args st)

omit [Account φ] in
theorem Retreats.value {start : Nat} {v : Value} {st : State φ} :
    Retreats start (.ok (some v, st)) := by
  intro h
  cases h

omit [Account φ] in
theorem Reply.Retreats.value {start : Nat} {v : Value} {scope : Scope} {st : State φ} :
    Reply.Retreats start (.ok ⟨some v, scope, st⟩) := by
  intro h
  cases h

theorem Target.checkCount_meets {α : Type} {post : α → Prop} {target : Target} {args : List Value}
    {k : Unit → Except Halt α} (h : Meets (fun _ => True) post (k ())) :
    Meets (fun _ => True) post (target.checkCount args >>= k) := by
  unfold checkCount
  split
  · exact h
  · trivial

/-- Nothing need be known of a computation that is gone on from. -/
theorem Meets.after {α β : Type} {m : Except Halt α} {k : α → Except Halt β} {post : β → Prop}
    (h : ∀ a, Meets (fun _ => True) post (k a)) : Meets (fun _ => True) post (m >>= k) :=
  Meets.bind (.of_error fun _ _ => trivial) fun a _ => h a

namespace Frame

variable (f : Frame) (st : State φ)

theorem any_retreats : Retreats st.pos (.ok (f.any st)) := by
  unfold any
  split
  · exact Retreats.value
  · exact fun _ => rfl

theorem exactly_retreats (v : Value) : Retreats st.pos (.ok (f.exactly v st)) := by
  unfold exactly
  split
  · exact Retreats.value
  · exact fun _ => rfl

theorem literal_retreats (text : String) : Retreats st.pos (.ok (f.literal text st)) := by
  unfold literal
  split
  · exact Retreats.value
  · exact fun _ => rfl

theorem charIf_retreats (test : Char → Bool) (label : String) :
    Retreats st.pos (.ok (f.charIf test label st)) := by
  unfold charIf
  split
  · split
    · exact Retreats.value
    · exact fun _ => rfl
  · exact fun _ => rfl

theorem itemIf_retreats (test : Value → Bool) (label : String) :
    Retreats st.pos (.ok (f.itemIf test label st)) := by
  unfold itemIf
  split
  · exact fun _ => rfl
  · split
    · split
      · exact Retreats.value
      · exact fun _ => rfl
    · exact fun _ => rfl

theorem sequel_retreats (v : Value) : Retreats st.pos (f.sequel v st) := by
  unfold sequel
  split
  · exact f.literal_retreats st _
  · split
    · trivial
    · exact f.exactly_retreats st _

end Frame

variable {apply : Applier φ} {registry : Registry} {f : Frame} {d : Grammar}

omit [Account φ] in
theorem applySpaces_retreats (ha : apply.Retreats) (st : State φ) :
    Retreats st.pos (applySpaces apply f d st) := by
  unfold applySpaces
  split
  next o r _ => exact Target.checkCount_meets (ha f d o r [] st)
  next => exact Retreats.value

theorem applyToken_retreats (ha : apply.Retreats) (v : Value) (st : State φ) :
    Retreats st.pos (applyToken apply f d v st) := by
  unfold applyToken
  refine Meets.bind (applySpaces_retreats ha st) fun (blank, inside) hback => ?_
  cases blank with
  | none => exact hback
  | some _ =>
    refine Meets.bind (f.sequel_retreats inside v) fun (value, _) _ => ?_
    cases value with
    | none => exact fun _ => rfl
    | some _ => exact Retreats.value

theorem applyBuiltin_retreats (ha : apply.Retreats) (b : Builtin) (args : List Value)
    (st : State φ) : Retreats st.pos (applyBuiltin apply f d b args st) := by
  cases b with
  | anything => exact f.any_retreats st
  | «end» =>
    simp only [applyBuiltin]
    split
    · exact Retreats.value
    · exact fun _ => rfl
  | empty | spaces | pos => exact Retreats.value
  | space | digit | letter | char => exact f.charIf_retreats st _ _
  | string | number => exact f.itemIf_retreats st _ _
  | col =>
    simp only [applyBuiltin]
    split
    · exact Retreats.value
    · exact fun _ => rfl
  | seq => exact f.sequel_retreats st _
  | token => exact applyToken_retreats ha _ st
  | exactly => exact f.exactly_retreats st _
  | apply => exact fun _ => rfl

/-- What a name means goes back where it fails, if the rules do. -/
theorem applyTarget_retreats (ha : apply.Retreats) (target : Target) (args : List Value)
    (st : State φ) : Retreats st.pos (applyTarget apply f d target args st) := by
  induction args generalizing target with
  | nil =>
    unfold applyTarget
    refine Target.checkCount_meets ?_
    cases target with
    | rule o r => exact ha f d o r [] st
    | builtin b => cases b <;> exact applyBuiltin_retreats ha _ _ st
  | cons v rest ih =>
    unfold applyTarget
    refine Target.checkCount_meets ?_
    split
    next => exact ha f d _ _ _ st
    next name rest' h1 h2 =>
      cases h2
      split
      · exact ih _
      · exact fun _ => rfl
    next => exact applyBuiltin_retreats ha _ _ st

/-- An application through a table goes back where it fails, whatever its body does. -/
theorem memoized_retreats {keep : Bool} {call : Call} {body : Attempt φ} (st : State φ) :
    Retreats st.pos (memoized keep f call body st) := by
  cases hst : st.memo.get? (st.pos, call) with
  | none =>
    rw [memoized_of_none hst]
    refine .after fun (v, inside) hv => ?_
    have hv : v = none := hv
    rw [hv]
    rfl
  | some entry =>
    cases entry with
    | active met =>
      rw [memoized_of_active hst]
      exact fun _ => rfl
    | done v stop a =>
      rw [memoized_of_done hst]
      intro hv
      have hv : v = none := hv
      rw [hv]
      rfl

theorem applyDepth_retreats (keep : Bool) (registry : Registry) (limit depth : Nat) :
    (applyDepth (φ := φ) (memoized keep) registry limit depth).Retreats := by
  cases depth with
  | zero => exact fun _ _ _ _ _ _ => trivial
  | succ depth => exact fun _ _ _ _ _ st => memoized_retreats st

namespace Expr

theorem application_retreats (ha : apply.Retreats) {e : Expr} {ctx : Context} {as : List Action}
    {meaning : Except Cause (Grammar × Target)}
    (he : e.application? ctx.dispatch ctx.owner = some (as, meaning)) (scope : Scope)
    (st : State φ) : Reply.Retreats st.pos (e.eval apply registry ctx scope st) := by
  rw [eval_application he]
  refine .after fun values => ?_
  cases meaning with
  | error c => trivial
  | ok step => exact Meets.bind (applyTarget_retreats ha step.2 values st) fun _ h => h

mutual

/-- **An expression that fails has gone back to its start.** -/
theorem eval_retreats (ha : apply.Retreats) : ∀ (e : Expr) (ctx : Context) (scope : Scope)
    (st : State φ), Reply.Retreats st.pos (e.eval apply registry ctx scope st)
  | any, ctx, _, st => ctx.frame.any_retreats st
  | terminal v, ctx, _, st => ctx.frame.exactly_retreats st v
  | literal text, ctx, _, st => ctx.frame.literal_retreats st text
  | range _ _, ctx, _, st => ctx.frame.charIf_retreats st _ _
  | sequence items, ctx, scope, st => by
    rw [eval]
    refine .after fun ⟨v, scope', inside⟩ => ?_
    cases v with
    | none => exact fun _ => rfl
    | some v => exact Reply.Retreats.value
  | choice alternatives, ctx, scope, st => by
    rw [eval]
    exact evalChoice_retreats ha alternatives ctx scope st
  | repeated body min max, ctx, scope, st => by
    rw [eval, evalRepeat]
    refine .after fun ⟨taken, scope', inside⟩ => ?_
    dsimp only
    split
    · exact fun _ => rfl
    · exact Reply.Retreats.value
  | lookahead negated body, ctx, scope, st => by
    rw [eval, evalLookahead]
    cases negated with
    | true => exact .after fun _ _ => rfl
    | false => exact .after fun _ _ => rfl
  | .apply _ _, _, scope, st => application_retreats ha rfl scope st
  | super _ _, _, scope, st => application_retreats ha rfl scope st
  | foreign _ _ _, _, scope, st => application_retreats ha rfl scope st
  | bind name body, ctx, scope, st => by
    rw [eval]
    refine Meets.bind (eval_retreats ha body ctx scope st) fun r hr => ?_
    obtain ⟨v, scope', st'⟩ := r
    cases v with
    | none => exact hr
    | some v => exact Reply.Retreats.value
  | action a, ctx, scope, st => by
    rw [eval]
    exact .after fun _ => Reply.Retreats.value
  | guard a, ctx, scope, st => by
    rw [eval]
    refine .after fun v => ?_
    split
    · exact Reply.Retreats.value
    · exact fun _ => rfl
  | nested body, ctx, scope, st => by
    rw [eval, evalNested]
    dsimp only
    split
    next => exact fun _ => rfl
    next inner _ =>
      refine .after fun ⟨v, scope', inside⟩ => ?_
      cases v with
      | none => exact fun _ => rfl
      | some v =>
        dsimp only
        split
        · exact fun _ => rfl
        · exact Reply.Retreats.value
  | capture body, ctx, scope, st => by
    rw [eval]
    refine Meets.bind (eval_retreats ha body ctx scope st) fun r hr => ?_
    obtain ⟨v, scope', st'⟩ := r
    cases v with
    | none => exact hr
    | some v => exact Reply.Retreats.value

theorem evalChoice_retreats (ha : apply.Retreats) : ∀ (es : List Expr) (ctx : Context)
    (scope : Scope) (st : State φ),
      Reply.Retreats st.pos (evalChoice apply registry es ctx scope st)
  | [], ctx, scope, st => by
    rw [evalChoice]
    exact fun _ => rfl
  | e :: es, ctx, scope, st => by
    rw [evalChoice]
    refine .after fun ⟨v, scope', inside⟩ => ?_
    cases v with
    | none => exact evalChoice_retreats ha es ctx scope' (inside.moveTo st.pos)
    | some v => exact Reply.Retreats.value

end

/-! ### Wrappers do nothing -/

section Wrappers

variable {apply : Applier Unit}

/-- **Where a sequence started matters to accounts only.** -/
theorem eval_sequenceStart (e : Expr) (ctx : Context) (start : Option Nat) :
    e.eval apply registry { ctx with sequenceStart := start } = e.eval apply registry ctx := by
  have H : Leafwise apply apply registry (fun c c' => ∃ p, c = { c' with sequenceStart := p })
      e.subexprs :=
    { leaf := by
        rintro e _ c' - hleaf ⟨p, rfl⟩
        cases e with
        | any | terminal | literal | range | apply | super | foreign | action | guard =>
          funext scope st
          rfl
        | _ => cases hleaf
      sequence := by
        rintro _ c' q ⟨p, rfl⟩
        exact ⟨_, rfl⟩
      size := by
        rintro _ c' ⟨p, rfl⟩
        rfl
      capture := by
        rintro _ _ c' - ⟨p, rfl⟩
        rfl
      nested := by
        rintro _ _ c' - ⟨p, rfl⟩
        exact ⟨rfl, fun f => ⟨_, rfl⟩⟩ }
  exact H.eval e ⟨start, rfl⟩

/-- A sequence of one item does what the item does. -/
theorem eval_sequence_single (ha : apply.Retreats) (e : Expr) (ctx : Context) :
    (sequence [e]).eval apply registry ctx = e.eval apply registry ctx := by
  funext scope st
  have hback : Reply.Retreats st.pos (e.eval apply registry ctx scope st) :=
    eval_retreats ha e ctx scope st
  rw [eval, evalSequence, eval_sequenceStart]
  cases he : e.eval apply registry ctx scope st with
  | error h => rfl
  | ok r =>
    obtain ⟨v, scope', pos, memo, account⟩ := r
    cases v with
    | some v => rfl
    | none =>
      obtain rfl : pos = st.pos := hback.result he rfl
      rfl

/-- A choice of one alternative does what the alternative does. -/
theorem eval_choice_single (ha : apply.Retreats) (e : Expr) (ctx : Context) :
    (choice [e]).eval apply registry ctx = e.eval apply registry ctx := by
  funext scope st
  have hback : Reply.Retreats st.pos (e.eval apply registry ctx scope st) :=
    eval_retreats ha e ctx scope st
  rw [eval, evalChoice]
  cases he : e.eval apply registry ctx scope st with
  | error h => rfl
  | ok r =>
    obtain ⟨v, scope', pos, memo, account⟩ := r
    cases v with
    | some v => rfl
    | none =>
      obtain rfl : pos = st.pos := hback.result he rfl
      simp only [Bind.bind, Except.bind, evalChoice]
      rfl

theorem eval_unwrapped_sequence (ha : apply.Retreats) (es : List Expr) (ctx : Context) :
    (unwrapped sequence es).eval apply registry ctx = (sequence es).eval apply registry ctx := by
  match es with
  | [] => rfl
  | [e] => exact (eval_sequence_single ha e ctx).symm
  | _ :: _ :: _ => rfl

theorem eval_unwrapped_choice (ha : apply.Retreats) (es : List Expr) (ctx : Context) :
    (unwrapped choice es).eval apply registry ctx = (choice es).eval apply registry ctx := by
  match es with
  | [] => rfl
  | [e] => exact (eval_choice_single ha e ctx).symm
  | _ :: _ :: _ => rfl

mutual

/-- **Wrappers of one element do nothing**, wherever in an expression they are. -/
theorem eval_stripped (ha : apply.Retreats) : ∀ (e : Expr) (ctx : Context),
    e.stripped.eval apply registry ctx = e.eval apply registry ctx
  | any, _ | terminal _, _ | literal _, _ | range _ _, _ | .apply _ _, _ | super _ _, _
  | foreign _ _ _, _ | action _, _ | guard _, _ => by simp only [stripped]
  | sequence items, ctx => by
    rw [stripped, eval_unwrapped_sequence ha]
    funext scope st
    rw [eval, eval, evalSequence_stripped ha]
  | choice alternatives, ctx => by
    rw [stripped, eval_unwrapped_choice ha]
    funext scope st
    rw [eval, eval, evalChoice_stripped ha]
  | repeated body _ _, ctx | lookahead _ body, ctx | bind _ body, ctx | capture body, ctx => by
    funext scope st
    rw [stripped, eval, eval, eval_stripped ha body]
  | nested body, ctx => by
    have ih (inner : Context) := eval_stripped ha body inner
    funext scope st
    rw [stripped, eval, eval]
    simp only [ih]

theorem evalSequence_stripped (ha : apply.Retreats) : ∀ (es : List Expr) (ctx : Context),
    evalSequence apply registry (strippedAll es) ctx = evalSequence apply registry es ctx
  | [], _ => by rw [strippedAll]
  | e :: es, ctx => by
    funext last scope st
    rw [strippedAll, evalSequence, evalSequence, eval_stripped ha e, evalSequence_stripped ha es]

theorem evalChoice_stripped (ha : apply.Retreats) : ∀ (es : List Expr) (ctx : Context),
    evalChoice apply registry (strippedAll es) ctx = evalChoice apply registry es ctx
  | [], _ => by rw [strippedAll]
  | e :: es, ctx => by
    funext scope st
    rw [strippedAll, evalChoice, evalChoice, eval_stripped ha e, evalChoice_stripped ha es]

end

end Wrappers

end Expr

end Packrat
