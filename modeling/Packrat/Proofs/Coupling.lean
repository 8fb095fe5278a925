import Packrat.Matcher.Rule

/-!
# Two matches side by side

Most of what is said about the matcher compares two of its runs: with a table and without one, with
kept results and without, at one depth and at another. Such runs differ only in how they apply
rules. What they have in common is settled here once: if two ways of applying rules are coupled,
then so is everything that is evaluated with them.

* `Coupling`: a relation between computations that the steps of a match respect.
* `Coupling.Calling`: two ways of applying rules that are in step.
* `Calling.target`: then what a name means is applied in step.
-/

namespace Packrat

/-- **A coupling** says something about two computations, one started in each of two states of a
frame, and what it says is kept by every step of a match. -/
structure Coupling (φ ψ : Type) [Account φ] [Account ψ] where
  rel : {α : Type} → Frame → State φ → State ψ →
    Except Halt (α × State φ) → Except Halt (α × State ψ) → Prop
  /-- What may end both runs. -/
  halts : Halt → Prop
  /-- Nothing is said of states at different positions. -/
  at_pos {α : Type} {f : Frame} {s : State φ} {t : State ψ} {m : Except Halt (α × State φ)}
    {n : Except Halt (α × State ψ)} : (s.pos = t.pos → rel f s t m n) → rel f s t m n
  halt {α : Type} {f : Frame} {s : State φ} {t : State ψ} {h : Halt} :
    halts h → rel (α := α) f s t (.error h) (.error h)
  move {α : Type} {f : Frame} {s : State φ} {t : State ψ} {a : α} {p : Nat} :
    rel f s t (.ok (a, s.moveTo p)) (.ok (a, t.moveTo p))
  expect {α : Type} {f : Frame} {s : State φ} {t : State ψ} {a : α} {p : Nat} {label : String} :
    rel f s t (.ok (a, s.expect f p label)) (.ok (a, t.expect f p label))
  bind {α β : Type} {f : Frame} {s : State φ} {t : State ψ} {m : Except Halt (α × State φ)}
    {n : Except Halt (α × State ψ)} {j : α × State φ → Except Halt (β × State φ)}
    {k : α × State ψ → Except Halt (β × State ψ)} :
    rel f s t m n → (∀ a s' t', rel f s' t' (j (a, s')) (k (a, t'))) →
      rel f s t (m >>= j) (n >>= k)
  /-- What a negated lookahead missed is put away. -/
  negated {α : Type} {f : Frame} {s : State φ} {t : State ψ} {m : Except Halt (α × State φ)}
    {n : Except Halt (α × State ψ)} :
    rel f { s with account := Account.empty } { t with account := Account.empty } m n →
      rel f s t
        (m >>= fun r => .ok (r.1, { r.2 with
          account := Account.append s.account (Account.ofNegation r.2.account) }))
        (n >>= fun r => .ok (r.1, { r.2 with
          account := Account.append t.account (Account.ofNegation r.2.account) }))
  /-- The contents of an element are matched with a table of their own. -/
  nested {α : Type} {f inner : Frame} {s : State φ} {t : State ψ} {m : Except Halt (α × State φ)}
    {n : Except Halt (α × State ψ)} {p : Nat} : f.enter? p = some inner →
    rel inner (.start s.account) (.start t.account) m n →
      rel f s t (m >>= fun r => .ok (r.1, { s with account := r.2.account }))
        (n >>= fun r => .ok (r.1, { t with account := r.2.account }))

namespace Coupling

variable {φ ψ : Type} [Account φ] [Account ψ] (C : Coupling φ ψ)

section Steps

variable {α : Type} {f : Frame} {s : State φ} {t : State ψ}

/-- Doing nothing is in step. -/
theorem rest {a : α} : C.rel f s t (.ok (a, s)) (.ok (a, t)) := by
  refine C.at_pos fun h => ?_
  have := C.move (f := f) (s := s) (t := t) (a := a) (p := s.pos)
  rw [show t.moveTo s.pos = t by rw [h]; rfl] at this
  exact this

/-- A result may be seen in another way. -/
theorem view {β : Type} {m : Except Halt (α × State φ)} {n : Except Halt (α × State ψ)} (g : α → β)
    (h : C.rel f s t m n) :
    C.rel f s t (m >>= fun r => .ok (g r.1, r.2)) (n >>= fun r => .ok (g r.1, r.2)) :=
  C.bind h fun _ _ _ => C.rest

theorem reject {label : String} :
    C.rel f s t (.ok (s.reject f label)) (.ok (t.reject f label)) := by
  refine C.at_pos fun h => ?_
  simp only [State.reject, h]
  exact C.expect

theorem any : C.rel f s t (.ok (f.any s)) (.ok (f.any t)) := by
  refine C.at_pos fun h => ?_
  unfold Frame.any
  rw [h]
  split
  · exact C.move
  · exact C.reject

theorem exactly {v : Value} : C.rel f s t (.ok (f.exactly v s)) (.ok (f.exactly v t)) := by
  refine C.at_pos fun h => ?_
  unfold Frame.exactly
  rw [h]
  split
  · exact C.move
  · exact C.reject

theorem literal {text : String} :
    C.rel f s t (.ok (f.literal text s)) (.ok (f.literal text t)) := by
  refine C.at_pos fun h => ?_
  unfold Frame.literal
  rw [h]
  split
  · exact C.move
  · exact C.reject

theorem charIf {test : Char → Bool} {label : String} :
    C.rel f s t (.ok (f.charIf test label s)) (.ok (f.charIf test label t)) := by
  refine C.at_pos fun h => ?_
  unfold Frame.charIf
  rw [h]
  split
  · split
    · exact C.move
    · exact C.reject
  · exact C.reject

theorem itemIf {test : Value → Bool} {label : String} :
    C.rel f s t (.ok (f.itemIf test label s)) (.ok (f.itemIf test label t)) := by
  refine C.at_pos fun h => ?_
  unfold Frame.itemIf
  rw [h]
  split
  · exact C.reject
  · split
    · split
      · exact C.move
      · exact C.reject
    · exact C.reject

end Steps

/-- **Ways of applying rules that are in step**, as far as the applications go that `permits` lets
happen. What is permitted covers the applications that built-in rules make in turn. -/
structure Calling (registry : Registry) (one : Applier φ) (two : Applier ψ)
    (permits : Grammar → Target → List Value → Prop) : Prop where
  count {d : Grammar} {target : Target} {args : List Value} : permits d target args →
    target.arity.accepts args.length = false →
      C.halts (.fatal (.arityMismatch target.name target.arity.text args.length))
  type {expected actual : String} : C.halts (.fatal (.typeMismatch expected actual))
  action {a : Action} {scope : Scope} {c : Cause} : a.eval registry scope = .error c →
    C.halts (.fatal c)
  loop : C.halts .exhausted
  rule {f : Frame} {d o : Grammar} {r : Rule} {args : List Value} {s : State φ} {t : State ψ} :
    permits d (.rule o r) args → args.length = r.params.length →
      C.rel f s t (one f d o r args s) (two f d o r args t)
  dynamic {d : Grammar} {name : String} {target : Target} {args : List Value} :
    permits d (.builtin .apply) (.string name :: args) → d.target? name = some target →
      permits d target args
  spaces {d o : Grammar} {r : Rule} {args : List Value} : permits d (.builtin .token) args →
    d.resolve? "spaces" = some (o, r) → permits d (.rule o r) []

variable {C} {registry : Registry} {one : Applier φ} {two : Applier ψ}
  {permits : Grammar → Target → List Value → Prop} {f : Frame} {d : Grammar}

/-- A wrong number of arguments ends both runs, the right one leaves them in step. -/
theorem Calling.checked {α : Type} (H : C.Calling registry one two permits) {target : Target}
    {args : List Value} (hp : permits d target args) {s : State φ} {t : State ψ}
    {j : Except Halt (α × State φ)} {k : Except Halt (α × State ψ)}
    (h : target.arity.accepts args.length = true → C.rel f s t j k) :
    C.rel f s t (target.checkCount args >>= fun _ => j)
      (target.checkCount args >>= fun _ => k) := by
  unfold Target.checkCount
  split
  next hc => exact h hc
  next hc => exact C.halt (H.count hp (Bool.eq_false_iff.2 hc))

theorem Calling.byRule (H : C.Calling registry one two permits) {o : Grammar} {r : Rule}
    {args : List Value} (hp : permits d (.rule o r) args) {s : State φ} {t : State ψ} :
    C.rel f s t ((Target.rule o r).checkCount args >>= fun _ => one f d o r args s)
      ((Target.rule o r).checkCount args >>= fun _ => two f d o r args t) := by
  refine H.checked hp fun hc => H.rule hp ?_
  simpa [Target.arity, Arity.accepts] using hc

theorem sequel (htype : ∀ {expected actual}, C.halts (.fatal (.typeMismatch expected actual)))
    {v : Value} {s : State φ} {t : State ψ} : C.rel f s t (f.sequel v s) (f.sequel v t) := by
  unfold Frame.sequel
  split
  · exact C.literal
  · split
    · exact C.halt htype
    · exact C.exactly

theorem Calling.token (H : C.Calling registry one two permits) {args : List Value}
    (hp : permits d (.builtin .token) args) {v : Value} {s : State φ} {t : State ψ} :
    C.rel f s t (applyToken one f d v s) (applyToken two f d v t) := by
  refine C.at_pos fun hpos => ?_
  unfold applyToken applySpaces
  refine C.bind ?_ fun a s' t' => ?_
  · -- white space is what the grammar says, else what is built in, which takes no rule
    cases hr : d.resolve? "spaces" with
    | none => simp only [State.accept, hpos]; exact C.move
    | some or => exact H.byRule (H.spaces hp hr)
  · cases a with
    | none => exact C.rest
    | some _ =>
      refine C.bind (sequel H.type) fun b s'' t'' => ?_
      cases b with
      | none => rw [hpos]; exact C.move
      | some _ => exact C.rest

theorem Calling.builtin (H : C.Calling registry one two permits) {b : Builtin} {args : List Value}
    (hp : permits d (.builtin b) args) {s : State φ} {t : State ψ} :
    C.rel f s t (applyBuiltin one f d b args s) (applyBuiltin two f d b args t) := by
  refine C.at_pos fun hpos => ?_
  cases b with
  | anything => exact C.any
  | «end» =>
    simp only [applyBuiltin, hpos]
    split
    · exact C.move
    · exact C.reject
  | pos => simp only [applyBuiltin, hpos]; exact C.move
  | col =>
    simp only [applyBuiltin, hpos]
    split
    · exact C.move
    · exact C.reject
  | empty | spaces => simp only [applyBuiltin, State.accept, hpos]; exact C.move
  | space | digit | letter | char => exact C.charIf
  | string | number => exact C.itemIf
  | seq => exact sequel H.type
  | token => exact H.token hp
  | exactly => exact C.exactly
  | apply => exact C.reject

/-- **What a name means is applied in step.** -/
theorem Calling.target (H : C.Calling registry one two permits) {target : Target}
    {args : List Value} (hp : permits d target args) {s : State φ} {t : State ψ} :
    C.rel f s t (applyTarget one f d target args s) (applyTarget two f d target args t) := by
  -- `apply` takes the name of a rule off its arguments, so what it applies has fewer of them
  induction args generalizing target with
  | nil =>
    unfold applyTarget
    cases target with
    | rule o r => exact H.byRule hp
    | builtin b => exact H.checked hp fun _ => by cases b <;> exact H.builtin hp
  | cons v rest ih =>
    unfold applyTarget
    cases target with
    | rule o r => exact H.byRule hp
    | builtin b =>
      refine H.checked hp fun _ => ?_
      split
      next => contradiction
      next name rest' h1 h2 =>
        cases h1; cases h2
        split
        · exact ih (H.dynamic hp ‹_›)
        · exact C.reject
      next h1 h2 => cases h1; exact H.builtin hp

end Coupling

end Packrat
