import Packrat.Proofs.Mirroring

/-!
# The discipline of a run

What a run may rely on wherever it evaluates an expression, and why it ends. The machine changes
positions, levels, the depth and the start of the running sequence in many places and puts each of
them back in a different place, on some paths and not on others. Since it mirrors the matcher, none
of this is left over when an expression has been evaluated, not even if the run ends there.

* `Expr.stride?`: how far an expression goes when it matches, if that is fixed.
* `Machine.Kept`: what evaluating an expression keeps to.
* `Machine.eval_kept`: every evaluation does, wherever a run comes.
* `Machine.run_ends`: every run ends, and makes progress on the way.
-/

namespace Packrat

/-- How far an expression goes when it matches, if that does not depend on the input. -/
def Expr.stride? : Expr → Option Nat
  | lookahead _ _ => some 0
  | nested _ => some 1
  | _ => none

variable {φ : Type} [Account φ] {apply : Applier φ} {registry : Registry}

/-- An expression goes as far as its stride. -/
theorem Expr.eval_stride (ha : apply.Advances (Books.blank φ)) (expr : Expr) (ctx : Context)
    {scope : Scope} {s : State φ} (h : s.Sound (Books.blank φ) ctx.frame) :
    Ends (fun r => r.value.isSome → ∀ k, expr.stride? = some k → r.state.pos = s.pos + k)
      (expr.eval apply registry ctx scope s) := by
  have hplaced (ctx : Context) : ctx.Placed (Books.blank φ) := fun _ _ => trivial
  cases expr with
  | lookahead negated body =>
    rw [Expr.eval]
    unfold evalLookahead
    cases negated with
    | false =>
      refine (Expr.eval_advances ha body ctx (hplaced ctx) h).bind fun r _ _ k hk => ?_
      cases hk
      rfl
    | true =>
      have hs : ({ s with account := Account.empty } : State φ).Sound (Books.blank φ) ctx.frame :=
        ⟨trivial, h.within, h.table, trivial⟩
      refine (Expr.eval_advances ha body ctx (hplaced ctx) hs).bind fun r _ _ k hk => ?_
      cases hk
      rfl
  | nested body =>
    rw [Expr.eval]
    cases he : ctx.frame.enter? s.pos with
    | none =>
      simp only [evalNested, he]
      intro hv
      cases hv
    | some inner =>
      simp only [evalNested, he]
      refine (Expr.eval_advances ha body _ (hplaced _) (h.start he)).bind fun r _ => ?_
      obtain ⟨v, scope', t⟩ := r
      cases v with
      | none =>
        intro hv
        cases hv
      | some v =>
        dsimp only
        split
        · intro hv
          cases hv
        · intro _ k hk
          cases hk
          rfl
  | _ =>
    refine (Expr.eval_advances ha _ ctx (hplaced ctx) h).mono fun r _ _ k hk => ?_
    cases hk

namespace Machine

/-- **What evaluating an expression keeps to**, from configuration `c` in environment `env`: a
failure is where it began, a success is not before that and not behind the end, and in any case,
also when the run ends here, all that is around it is as it was. Nothing is accessed that is not
there. -/
structure Kept (expr : Expr) (env : Env) (c : Configuration φ) (r : Verdict) (env' : Env)
    (c' : Configuration φ) : Prop where
  back : r = .ok none → c'.level.pos = c.level.pos
  forward : ∀ v, r = .ok (some v) → c.level.pos ≤ c'.level.pos ∧ c'.level.pos ≤ c.level.input.size
  stride : ∀ v k, r = .ok (some v) → expr.stride? = some k → c'.level.pos = c.level.pos + k
  parents : c'.parents = c.parents
  input : c'.level.input = c.level.input
  origin : c'.level.origin = c.level.origin
  tag : c'.level.tag = c.level.tag
  depth : c'.depth = c.depth
  sequenceStart : env'.sequenceStart = env.sequenceStart
  inRange : r ≠ .error .outOfRange

/-- What is around the state of a frame is not touched. -/
theorem Reaches.kept {limit : Nat} {m m' : Machine φ} {st : State φ} {expr : Expr} {env env' : Env}
    {r : Verdict} (h : m.Reaches limit st m')
    (hback : r = .ok none → st.pos = m.level.pos)
    (hforward : ∀ v, r = .ok (some v) → m.level.pos ≤ st.pos ∧ st.pos ≤ m.level.input.size)
    (hstride : ∀ v k, r = .ok (some v) → expr.stride? = some k → st.pos = m.level.pos + k)
    (hseq : env'.sequenceStart = env.sequenceStart) (hr : r ≠ .error .outOfRange) :
    Kept expr env m.toConfiguration r env' m'.toConfiguration where
  back := h.pos ▸ hback
  forward := h.pos ▸ hforward
  stride := h.pos ▸ hstride
  parents := by rw [h.now]; rfl
  input := by rw [h.now]; rfl
  origin := by rw [h.now]; rfl
  tag := by rw [h.now]; rfl
  depth := h.depth
  sequenceStart := hseq
  inRange := hr

/-- From a configuration in order, every evaluation comes to an end and keeps to it. -/
theorem keeps_of_orderly {e : Engine} {m : Machine φ} (hm : m.Orderly e.options.maxDepth)
    (expr : Expr) (env : Env) :
    ∃ r env' m', Converges (fun n => m.eval e n expr env) (r, env', m') ∧
      Kept expr env m.toConfiguration r env' m'.toConfiguration := by
  have hdepth : m.depth + (e.options.maxDepth - m.depth) = e.options.maxDepth :=
    Nat.add_sub_of_le hm.depth
  have ha : (applyDepth (memoized e.options.memoize) e.registry e.options.maxDepth
      (e.options.maxDepth - m.depth) : Applier φ).Advances (Books.blank φ) :=
    applyDepth_advances _ _ _ _
  have hmirror := eval_mirrors_of_noted
    (evalNoted_mirrors ha (applyRule_mirrors e _ m.depth hdepth) expr) env m hm rfl
  have hends := hmirror.and_ends
    ((Expr.eval_advances ha expr (env.context m.frame) (fun _ _ => trivial) hm.sound).and
      (Expr.eval_stride ha expr (env.context m.frame) hm.sound))
  unfold Mirrors at hends
  split at hends
  next a hmodel =>
    obtain ⟨_, ⟨_, m'⟩, hconv, ⟨hadv, hstride⟩, rfl, rfl, hreach⟩ := hends
    refine ⟨_, _, m', hconv, hreach.kept ?_ ?_ ?_ rfl ?_⟩
    · intro hr
      exact hadv.back (Except.ok.inj hr)
    · intro v _
      exact ⟨hadv.forward, hadv.sound.within⟩
    · intro v k hr hk
      exact hstride (by rw [Except.ok.inj hr]; rfl) k hk
    · intro hr
      cases hr
  next halt hmodel =>
    obtain ⟨⟨env', m'⟩, hconv, hseq, st, hreach⟩ := hends
    refine ⟨_, env', m', hconv, hreach.kept ?_ ?_ ?_ hseq ?_⟩
    · intro hr
      cases hr
    · intro v hr
      cases hr
    · intro v k hr
      cases hr
    · intro hr
      cases hr

/-- A run that was carried out under some clock tells what is noted. -/
theorem exists_noted {e : Engine} {g : Grammar} {rule : String} {input : Input} {args : List Value}
    {toEnd : Bool} {r : Except Fault Outcome} {m : Machine Furthest} {n : Nat}
    {test : Note Furthest → Bool}
    (h : (run e n g rule input args toEnd).any fun x => x.2.notes.any test)
    (hconv : Converges (fun n => run e n g rule input args toEnd) (r, m)) :
    ∃ note ∈ m.notes, test note = true := by
  obtain ⟨x, hx, hany⟩ := (Option.any_eq_true _ _).1 h
  obtain rfl : x = (r, m) := (converges_run hx).unique hconv
  exact List.any_eq_true.1 hany

/-- **Every evaluation of a run keeps to it**: wherever a run evaluates an expression, any
expression in any environment would come to an end, leave the position where a failure has to and a
success may, and leave all around it as it was. -/
theorem eval_kept (e : Engine) (g : Grammar) (rule : String) (input : Input) (args : List Value)
    (toEnd : Bool) :
    ∃ m, Converges (fun n => run e n g rule input args toEnd)
        ((e.run g rule input args toEnd).mapError .halt, m) ∧
      ∀ c, .visit c ∈ m.notes → ∀ expr env, ∃ r env' m',
        Converges (fun n => eval e n expr env { c with notes := [] }) (r, env', m') ∧
          Kept expr env c r env' m'.toConfiguration := by
  obtain ⟨m, hconv, hfine⟩ := run_mirrors e g rule input args toEnd
  refine ⟨m, hconv, fun c hc expr env => ?_⟩
  have hm : c.Orderly e.options.maxDepth := hfine _ hc
  exact keeps_of_orderly (m := { c with notes := [] }) hm expr env

/-- A note about an evaluation two elements deep, behind the first element there. -/
def isDeepVisit : Note Furthest → Bool
  | .visit c => c.parents.length = 2 && c.level.pos = 1
  | _ => false

/-- In a run that fails two nodes deep. -/
theorem eval_kept_oddSum :
    ∃ m c, Converges (fun n => run {} n Engine.sums.freeze "start" (.ofList [Engine.oddSum]) [] true)
        (.ok (.failure Engine.oddSumReport), m) ∧
      .visit c ∈ m.notes ∧ c.parents.length = 2 ∧ c.level.pos = 1 ∧
      ∀ expr env, ∃ r env' m',
        Converges (fun n => eval {} n expr env { c with notes := [] }) (r, env', m') ∧
          Kept expr env c r env' m'.toConfiguration := by
  have hrun : ({} : Engine).run Engine.sums.freeze "start" (.ofList [Engine.oddSum]) [] true =
      .ok (.failure Engine.oddSumReport) := by decide +kernel
  obtain ⟨m, hconv, hkept⟩ :=
    eval_kept {} Engine.sums.freeze "start" (.ofList [Engine.oddSum]) [] true
  have hdeep : (run {} 40 Engine.sums.freeze "start" (.ofList [Engine.oddSum]) [] true).any
      fun x => x.2.notes.any isDeepVisit := by decide +kernel
  obtain ⟨note, hnote, hd⟩ := exists_noted hdeep hconv
  cases note with
  | visit c =>
    simp only [isDeepVisit, Bool.and_eq_true, decide_eq_true_eq] at hd
    rw [hrun] at hconv
    exact ⟨m, c, hconv, hnote, hd.1, hd.2, hkept c hnote⟩
  | _ => cases hd

/-- **Every run ends**, as a match, as a failure or for a reason that it names. On the way no more
rules are ever under way than the limit says, every round of a repetition but the last and every
growth of a seed goes further on within the input, and a built-in rule that applies a name hands on
fewer arguments than it was given. -/
theorem run_ends (e : Engine) (g : Grammar) (rule : String) (input : Input) (args : List Value)
    (toEnd : Bool) :
    ∃ m, Converges (fun n => run e n g rule input args toEnd)
        ((e.run g rule input args toEnd).mapError .halt, m) ∧
      ((∃ v cursor, e.run g rule input args toEnd = .ok (.success v cursor)) ∨
        (∃ f, e.run g rule input args toEnd = .ok (.failure f)) ∨
        ∃ cause, e.run g rule input args toEnd = .error (.fatal cause)) ∧
      (∀ c, .visit c ∈ m.notes → c.depth ≤ e.options.maxDepth) ∧
      (∀ size before after, .round size before after ∈ m.notes → before < after ∧ after ≤ size) ∧
      (∀ size before after, .growth size before after ∈ m.notes → before < after ∧ after ≤ size) ∧
      ∀ given passed, .handOn given passed ∈ m.notes → passed < given := by
  obtain ⟨m, hconv, hfine⟩ := run_mirrors e g rule input args toEnd
  refine ⟨m, hconv, ?_, fun c hc => (hfine _ hc).depth, fun _ _ _ h => hfine _ h,
    fun _ _ _ h => hfine _ h, fun _ _ h => hfine _ h⟩
  cases hrun : e.run g rule input args toEnd with
  | ok outcome =>
    cases outcome with
    | success v cursor => exact .inl ⟨v, cursor, rfl⟩
    | failure f => exact .inr (.inl ⟨f, rfl⟩)
  | error h =>
    have hends : Ends (fun r => Advance (Books.blank Furthest) { input } (.start Account.empty)
        r.1 r.2) (e.start g rule input args) := Engine.start_advances trivial
    rw [e.run_error hrun] at hends
    cases h with
    | fatal cause => exact .inr (.inr ⟨cause, rfl⟩)
    | exhausted => exact absurd rfl hends

/-- What a note is about. -/
def topic : Note Furthest → String
  | .visit _ => "visit"
  | .round .. => "round"
  | .growth .. => "growth"
  | .handOn .. => "hand on"

/-- A run that has rounds, growth, and arguments handed on. -/
theorem run_ends_lists :
    ∃ m, Converges (fun n => run {} n Draft.lists.freeze "list" (.ofString "aa,a") [] false)
        ((({} : Engine).run Draft.lists.freeze "list" (.ofString "aa,a") [] false).mapError .halt,
          m) ∧
      (∃ size before after, .round size before after ∈ m.notes ∧ before < after ∧ after ≤ size) ∧
      (∃ size before after, .growth size before after ∈ m.notes ∧ before < after ∧ after ≤ size) ∧
      ∃ given passed, .handOn given passed ∈ m.notes ∧ passed < given := by
  obtain ⟨m, hconv, -, -, hround, hgrowth, hhand⟩ :=
    run_ends {} Draft.lists.freeze "list" (.ofString "aa,a") [] false
  have hnoted (t : String)
      (h : (run {} 60 Draft.lists.freeze "list" (.ofString "aa,a") [] false).any
        fun x => x.2.notes.any fun note => topic note = t) :
      ∃ note ∈ m.notes, topic note = t := by
    obtain ⟨note, hm, ht⟩ := exists_noted h hconv
    exact ⟨note, hm, of_decide_eq_true ht⟩
  refine ⟨m, hconv, ?_, ?_, ?_⟩
  · obtain ⟨note, hm, ht⟩ := hnoted "round" (by decide +kernel)
    cases note with
    | round size before after => exact ⟨size, before, after, hm, hround _ _ _ hm⟩
    | _ => simp [topic] at ht
  · obtain ⟨note, hm, ht⟩ := hnoted "growth" (by decide +kernel)
    cases note with
    | growth size before after => exact ⟨size, before, after, hm, hgrowth _ _ _ hm⟩
    | _ => simp [topic] at ht
  · obtain ⟨note, hm, ht⟩ := hnoted "hand on" (by decide +kernel)
    cases note with
    | handOn given passed => exact ⟨given, passed, hm, hhand _ _ hm⟩
    | _ => simp [topic] at ht

end Machine

end Packrat
