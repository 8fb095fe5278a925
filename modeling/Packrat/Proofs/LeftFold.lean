import Packrat.Proofs.Counts
import Packrat.Proofs.Growth
import Packrat.Proofs.Progress
import Packrat.Proofs.Scopes

/-!
# Rules that start with themselves

A rule that starts with itself, such as `sum = l:sum '+' n:num → add(l, n) / num`, has a base, which
is what its last alternative matches, and a step, which is what follows the rule itself in its first
alternative. What both of them come to is said here of plain matches, from any position on. A run of
the body of the rule comes to a step if there is a seed to start from and the step is there, and
else to the base.

The rule may also come upon itself through an alias, another rule that only applies it, and the
alias may be what is applied in the first place.

* `Comes`: what some expressions come to if they are matched plainly.
* `Comes.keyed`, `Comes.plain`: keyed matches of them come to the same up to the bits of NaNs.
* `LeftFold`: what such a rule is made of, with its base (`Starts`), its step (`Step`), and what is
  folded from them (`Total`).
* `LeftFold.Way`: how it comes upon itself, and what is applied first.
* `LeftFold.body_follows`: a run of its body.
-/

namespace Packrat

/-! ### What a fold is made of -/

/-- **What some expressions come to** that are matched one after the other with rules applied in
this way, from a position on and in a scope: the last value and where it ends, or neither. -/
def Comes (rules : Nat → Applier Unit) (registry : Registry) (ctx : Context) (es : List Expr)
    (scope : Scope) (p : Nat) (out : Option (Value × Nat)) : Prop :=
  ∃ n r, Expr.evalSequence (rules n) registry es ctx .nil scope ⟨p, .empty, ()⟩ = .ok r ∧
    out = r.value.map fun v => (v, r.state.pos)

variable {rules : Nat → Applier Unit} {registry : Registry} {limit : Nat} {ctx : Context}
  {es : List Expr} {scope scope' : Scope} {p : Nat} {out out' : Option (Value × Nat)}

/-- What comes to something comes to the same where more is bound. -/
theorem Comes.within (h : Comes rules registry ctx es scope p out) (hs : scope.Within scope') :
    Comes rules registry ctx es scope' p out := by
  obtain ⟨n, r, hr, rfl⟩ := h
  have htracks : Tracks True (Reply.Under Scope.Within)
      (Expr.evalSequence (rules n) registry es ctx .nil scope ⟨p, .empty, ()⟩) _ :=
    Expr.evalSequence_tracks es ctx .nil _ (.within registry _) hs
  rw [hr] at htracks
  obtain ⟨r', hr', hunder⟩ := htracks
  obtain ⟨-⟩ := hunder
  exact ⟨n, _, hr', rfl⟩

/-- Depth only cuts off. -/
theorem evalSequence_direct_mono {n m : Nat} (h : n ≤ m) {r : Reply Unit} {st : State Unit}
    {last : Value} (hr : Expr.evalSequence (applyKeyed direct registry limit n) registry es ctx last
      scope st = .ok r) :
    ∃ r', Expr.evalSequence (applyKeyed direct registry limit m) registry es ctx last scope st =
      .ok r' ∧ r'.value = r.value ∧ r'.state.pos = r.state.pos := by
  have hstep : (untabled (φ := Unit)).coupling.replies ctx.frame st st
      (Expr.evalSequence (applyKeyed direct registry limit m) registry es ctx last scope st)
      (Expr.evalSequence (applyKeyed direct registry limit n) registry es ctx last scope st) :=
    (Coupling.grounded registry (fun _ => trivial) (direct_mono registry limit h)).evalSequence es
      ctx (Coupling.permitted_grounded (fun _ => trivial) _ _ _)
  have hfollows := hstep ⟨rfl, trivial, rfl⟩
  rw [hr] at hfollows
  obtain ⟨s, hs, hlike⟩ := hfollows
  obtain ⟨r', hr', hsplit⟩ := bind_eq_ok hs
  obtain ⟨v, scope', state⟩ := r'
  cases hsplit
  exact ⟨_, hr', rfl, hlike.pos⟩

/-- In a keyed match expressions come to one thing only. -/
theorem Comes.unique (h : Comes (applyKeyed direct registry limit) registry ctx es scope p out)
    (h' : Comes (applyKeyed direct registry limit) registry ctx es scope p out') : out = out' := by
  obtain ⟨n, r, hr, rfl⟩ := h
  obtain ⟨m, q, hq, rfl⟩ := h'
  obtain ⟨r', hr', hv, hp⟩ := evalSequence_direct_mono (Nat.le_max_left n m) hr
  obtain ⟨q', hq', hv', hp'⟩ := evalSequence_direct_mono (Nat.le_max_right n m) hq
  rw [hr'] at hq'
  cases hq'
  rw [← hv, ← hv', ← hp, ← hp']

/-- Expressions are matched alike by a keyed match. -/
theorem evalSequence_keyed (hb : registry.Blind) (limit n : Nat) (ctx : Context) (es : List Expr)
    (p : Nat) (hs : scope.Alike scope') :
    TracksExcept (fun _ => False) (Reply.Alike (.same Unit))
      (Expr.evalSequence (applyDepth direct registry limit n) registry es ctx .nil scope
        ⟨p, .empty, ()⟩)
      (Expr.evalSequence (applyKeyed direct registry limit n) registry es ctx .nil scope'
        ⟨p, .empty, ()⟩) :=
  Expr.evalSequence_alike hb (direct_keyed hb (.same Unit) limit n) es ctx rfl _ _ _ _ hs
    ⟨rfl, .empty, rfl⟩

/-- Replies that are alike come to what is alike. -/
theorem Reply.Alike.ends {r q : Reply Unit} (h : r.Alike (.same Unit) q) :
    AlikeEnds (r.value.map fun v => (v, r.state.pos)) (q.value.map fun v => (v, q.state.pos)) := by
  rw [h.state.pos]
  exact .ofValue h.value _

/-- What plain matches come to, a keyed one comes to. -/
theorem Comes.keyed (hb : registry.Blind) (hs : scope.Alike scope')
    (h : Comes (applyDepth direct registry limit) registry ctx es scope p out) :
    ∃ out', Comes (applyKeyed direct registry limit) registry ctx es scope' p out' ∧
      AlikeEnds out out' := by
  obtain ⟨n, r, hr, rfl⟩ := h
  have hkeyed := evalSequence_keyed hb limit n ctx es p hs
  rw [hr] at hkeyed
  obtain ⟨q, hq, hrq⟩ := hkeyed
  exact ⟨_, ⟨n, q, hq, rfl⟩, hrq.ends⟩

/-- And the other way round. -/
theorem Comes.plain (hb : registry.Blind) (hs : scope.Alike scope')
    (h : Comes (applyKeyed direct registry limit) registry ctx es scope p out) :
    ∃ out', Comes (applyDepth direct registry limit) registry ctx es scope' p out' ∧
      AlikeEnds out out' := by
  obtain ⟨n, q, hq, rfl⟩ := h
  obtain ⟨r, hr, hrq⟩ := (evalSequence_keyed hb limit n ctx es p hs.symm).of_ok hq
  exact ⟨_, ⟨n, r, hr, rfl⟩, hrq.ends.symm⟩

/-- The value before the first of some expressions does not matter. -/
theorem evalSequence_last {φ : Type} [Account φ] {apply : Applier φ} (hes : es ≠ [])
    (last last' : Value) (st : State φ) :
    Expr.evalSequence apply registry es ctx last scope st =
      Expr.evalSequence apply registry es ctx last' scope st := by
  cases es with
  | nil => exact absurd rfl hes
  | cons e es => rw [Expr.evalSequence, Expr.evalSequence]

theorem evalSequence_singleton {φ : Type} [Account φ] {apply : Applier φ} (e : Expr)
    (last : Value) (st : State φ) :
    Expr.evalSequence apply registry [e] ctx last scope st =
      e.eval apply registry ctx scope st := by
  rw [Expr.evalSequence]
  cases e.eval apply registry ctx scope st with
  | error h => rfl
  | ok r =>
    obtain ⟨v, scope', st'⟩ := r
    cases v with
    | none => rfl
    | some v =>
      show Expr.evalSequence apply registry [] ctx v scope' st' = _
      rw [Expr.evalSequence]

/-! ### Rules that start with themselves -/

/-- **What a rule is made of that starts with itself.** -/
structure LeftFold where
  /-- The name for what was matched so far. -/
  left : String
  /-- What is applied on the left. -/
  again : String
  /-- What follows. -/
  rest : List Expr
  /-- The value, if all that follows is there. -/
  result : Action
  /-- What is matched first of all. -/
  base : Expr

namespace LeftFold

variable (F : LeftFold)

/-- What is matched after what was matched so far. -/
def steps : List Expr := F.rest ++ [.action F.result]

/-- The body of the rule. -/
def body : Expr := .choice [.sequence (.bind F.left (.app F.again) :: F.steps), F.base]

section Plain

variable (rules : Nat → Applier Unit) (registry : Registry) (f : Frame) (d o : Grammar)

/-- What the base comes to at a position, in an empty scope. -/
def Starts (p : Nat) : Option (Value × Nat) → Prop :=
  Comes rules registry { frame := f, dispatch := d, owner := o } [F.base] [] p

/-- What a step comes to from the value and the end so far, in a scope with nothing in it but that
value. The rule was applied at `p`. -/
def Step (p : Nat) (v : Value) (e : Nat) : Option (Value × Nat) → Prop :=
  Comes rules registry { frame := f, dispatch := d, owner := o, sequenceStart := some p } F.steps
    (Scope.insert [] F.left v) e

/-- **What it all amounts to** at a position. -/
abbrev Total (p : Nat) : Option (Value × Nat) → Prop :=
  Fold (F.Starts rules registry f d o p) (F.Step rules registry f d o p)

end Plain

/-- What may come to be applied in the base and in what follows the rule itself. -/
def Reaches (d o g : Grammar) (t : Target) : Prop :=
  ∃ e ∈ Expr.subexprsAll (F.base :: F.rest), ∃ as home start,
    e.application? d o = some (as, .ok (home, start)) ∧ Reachable home start g t

/-- **An alias** `y` of the rule `r`: what is applied on the left, and it only applies the rule. -/
structure Alias (d o : Grammar) (r : Rule) (o' : Grammar) (y : Rule) : Prop where
  again : d.target? F.again = some (.rule o' y)
  params : y.params = []
  body : ∃ name, y.body = .app name ∧ d.target? name = some (.rule o r)

/-- **How the rule comes upon itself**, at once or through an alias, and which of the two is applied
in the first place. -/
inductive Way (d o : Grammar) (r : Rule) : Grammar → Rule → Prop
  | self : d.target? F.again = some (.rule o r) → Way d o r o r
  | through {o' : Grammar} {y : Rule} : F.Alias d o r o' y → Way d o r o r
  | ahead {o' : Grammar} {y : Rule} : F.Alias d o r o' y → Way d o r o' y

end LeftFold

/-- What is reachable from what is grounded is grounded. -/
theorem Reachable.grounded {home d : Grammar} {start target : Target} (hs : start.Grounded)
    (h : Reachable home start d target) : target.Grounded := by
  induction h with
  | start => exact hs
  | @next d g target other _ hm _ =>
    cases target with
    | rule o r =>
      obtain ⟨e, -, he⟩ := List.mem_filterMap.1 hm
      split at he
      next as step ha =>
        cases he
        exact Expr.application?_grounded ha
      next => cases he
    | builtin b =>
      cases b with
      | token =>
        simp only [Grammar.next, Option.mem_toList, Option.map_eq_some_iff] at hm
        obtain ⟨⟨o, r⟩, hr, he⟩ := hm
        cases he
        exact Grammar.resolve?_grounded hr
      | _ => cases hm

theorem Expr.subexprsAll_append (es fs : List Expr) :
    subexprsAll (es ++ fs) = subexprsAll es ++ subexprsAll fs := by
  induction es with
  | nil => rfl
  | cons e es ih => rw [List.cons_append, subexprsAll, subexprsAll, ih, List.append_assoc]

namespace LeftFold

variable {F : LeftFold} {d o : Grammar}

/-- What the rule reaches beside itself is without left recursion, if no rule among it is
left-recursive and nothing looks up names. -/
theorem steady (hb : registry.Blind)
    (hstraight : ∀ g o' r', F.Reaches d o g (.rule o' r') → ¬ LeftRecursive registry g o' r')
    (hstatic : ∀ g, ¬ F.Reaches d o g (.builtin .apply)) : Steady registry (F.Reaches d o) where
  blind := hb
  grounded := by
    rintro g t ⟨e, -, as, home, start, ha, hr⟩
    exact hr.grounded (Expr.application?_grounded ha)
  static := hstatic _
  straight := hstraight _ _ _
  spaces := by
    rintro g o' r ⟨e, he, as, home, start, ha, hr⟩ hs
    exact ⟨e, he, as, home, start, ha, hr.spaces hs⟩
  body := by
    rintro g o' g' r t e' as' ⟨e, he, as, home, start, ha, hr⟩ he' ha'
    exact ⟨e, he, as, home, start, ha, hr.application he' ha'⟩

theorem applies_base : Expr.Applies (F.Reaches d o) d o (Expr.subexprsAll [F.base]) := by
  intro e he as g t ha
  refine ⟨e, ?_, as, g, t, ha, .start⟩
  simp only [Expr.subexprsAll, List.append_nil] at he
  exact List.mem_append_left _ he

theorem applies_steps : Expr.Applies (F.Reaches d o) d o (Expr.subexprsAll F.steps) := by
  intro e he as g t ha
  rw [steps, Expr.subexprsAll_append] at he
  rcases List.mem_append.1 he with he | he
  · exact ⟨e, List.mem_append_right _ he, as, g, t, ha, .start⟩
  · simp only [Expr.subexprsAll, Expr.subexprs, List.append_nil, List.mem_singleton] at he
    subst he
    cases ha

end LeftFold

/-! ### The body of the rule -/

variable {S : Grammar → Target → Prop} {f : Frame} {x : Spot} {others : List Spot} {keep : Bool}
  {d o o₁ : Grammar} {r r₁ : Rule}

/-- Applying a name without arguments is applying the rule that it means. -/
theorem app_eval {φ : Type} [Account φ] {apply : Applier φ} {name : String} {st : State φ}
    (ht : ctx.dispatch.target? name = some (.rule o₁ r₁)) (hp : r₁.params = []) :
    (Expr.app name).eval apply registry ctx scope st =
      apply ctx.frame ctx.dispatch o₁ r₁ [] st >>= fun a => .ok (.ofAnswer scope a) := by
  have ha : (Expr.app name).application? ctx.dispatch ctx.owner =
      some ([], .ok (ctx.dispatch, .rule o₁ r₁)) := by simp [Expr.app, Expr.application?, ht]
  rw [Expr.eval_application ha, Action.evalAll]
  show applyTarget apply ctx.frame ctx.dispatch (.rule o₁ r₁) [] st >>= _ = _
  have hc : (Target.rule o₁ r₁).checkCount [] = .ok () := by
    simp [Target.checkCount, Target.arity, Arity.accepts, hp]
  unfold applyTarget
  rw [hc]
  rfl

/-- An alias does what the rule does that it applies. -/
theorem runBody_app {φ : Type} [Account φ] {apply : Applier φ} {name : String} {args : List Value}
    (hb : r.body = .app name) (ht : d.target? name = some (.rule o₁ r₁)) (hp : r₁.params = []) :
    runBody apply registry f d o r args = apply f d o₁ r₁ [] := by
  funext st
  unfold runBody
  rw [hb, app_eval ht hp]
  cases apply f d o₁ r₁ [] st <;> rfl

namespace LeftFold

variable {F : LeftFold}

/-- **How the body of the rule goes**: what is on the left first, then what follows, and if one of
them fails the base. -/
theorem body_eval {φ : Type} [Account φ] {apply : Applier φ} {st : State φ} {q : Reply φ}
    (hq : F.body.eval apply registry ctx scope st = .ok q) :
    ∃ a, (Expr.app F.again).eval apply registry { ctx with sequenceStart := some st.pos } scope st =
        .ok a ∧
      ((a.value = none ∧ Expr.evalChoice apply registry [F.base] ctx a.scope
          (a.state.moveTo st.pos) = .ok q) ∨
        ∃ w b, a.value = some w ∧ Expr.evalSequence apply registry F.steps
            { ctx with sequenceStart := some st.pos } w (a.scope.insert F.left w) a.state = .ok b ∧
          ((b.value.isSome ∧ q = b) ∨
            (b.value = none ∧ Expr.evalChoice apply registry [F.base] ctx b.scope
              (b.state.moveTo st.pos) = .ok q))) := by
  rw [body, Expr.eval, Expr.evalChoice] at hq
  obtain ⟨c, hc, hq⟩ := bind_eq_ok hq
  rw [Expr.eval] at hc
  obtain ⟨b, hb, hc⟩ := bind_eq_ok hc
  cases hc
  rw [Expr.evalSequence] at hb
  obtain ⟨a', ha', hb⟩ := bind_eq_ok hb
  rw [Expr.eval] at ha'
  obtain ⟨a, ha, ha'⟩ := bind_eq_ok ha'
  refine ⟨a, ha, ?_⟩
  obtain ⟨v, scope', st'⟩ := a
  cases v with
  | none =>
    cases ha'
    cases hb
    exact .inl ⟨rfl, hq⟩
  | some w =>
    cases ha'
    refine .inr ⟨w, b, rfl, hb, ?_⟩
    obtain ⟨v, scope'', st''⟩ := b
    cases v with
    | none => exact .inr ⟨rfl, hq⟩
    | some v =>
      cases hq
      exact .inl ⟨rfl, rfl⟩

variable {depth : Nat} {q : Reply Height} {s : State Height}

/-- What is without left recursion, matched through the table. -/
theorem comes_of_evalSequence (H : Steady registry S)
    (hS : Expr.Applies S ctx.dispatch ctx.owner (Expr.subexprsAll es))
    (hk : Gauged registry limit S ctx.frame s.memo .empty)
    (hq : Expr.evalSequence (applyKeyed (memoized keep) registry limit depth) registry es ctx .nil
      scope s = .ok q) :
    Comes (applyKeyed direct registry limit) registry ctx es scope s.pos
        (Answer.outcome (q.value, q.state)) ∧
      Gauged registry limit S ctx.frame q.state.memo .empty ∧ Spared S s.memo q.state.memo := by
  obtain ⟨⟨n, t, ht, hpos⟩, hkept, hspared⟩ := H.evalSequence hS hk hq
  exact ⟨⟨n, _, ht, by simp only [Answer.outcome, hpos]⟩, hkept, hspared⟩

/-- The base, matched through the table. -/
theorem comes_of_base (H : Steady registry S)
    (hS : Expr.Applies S ctx.dispatch ctx.owner (Expr.subexprsAll [F.base]))
    (hk : Gauged registry limit S ctx.frame s.memo .empty)
    (hq : Expr.evalChoice (applyKeyed (memoized keep) registry limit depth) registry [F.base] ctx
      scope s = .ok q) :
    Comes (applyKeyed direct registry limit) registry ctx [F.base] scope s.pos
        (Answer.outcome (q.value, q.state)) ∧
      Gauged registry limit S ctx.frame q.state.memo .empty ∧ Spared S s.memo q.state.memo := by
  rw [Expr.evalChoice] at hq
  obtain ⟨b, hb, hq⟩ := bind_eq_ok hq
  rw [← evalSequence_singleton F.base .nil] at hb
  have hcomes := comes_of_evalSequence H hS hk hb
  obtain ⟨v, scope', st'⟩ := b
  cases v with
  | none =>
    -- a choice that fails goes back to where it started
    simp only [Expr.evalChoice] at hq
    cases hq
    exact hcomes
  | some v =>
    cases hq
    exact hcomes

/-- **A run of the body of the rule**, if what is on its left comes upon the head. -/
theorem body_follows (H : Steady registry S) (hx : ¬ x.In S) (ho : ∀ z ∈ others, ¬ z.In S)
    (hbase : Expr.Applies S d o (Expr.subexprsAll [F.base]))
    (hsteps : Expr.Applies S d o (Expr.subexprsAll F.steps)) (hr : r.params = [])
    (hbody : r.body = F.body) (ht : d.target? F.again = some (.rule o₁ r₁)) (hr₁ : r₁.params = [])
    (hhit : Follow registry limit S f x others Hit
      (applyKeyed (memoized keep) registry limit depth f d o₁ r₁ [])) :
    Follow registry limit S f x others
      (Round (F.Starts (applyKeyed direct registry limit) registry f d o x.1)
        (F.Step (applyKeyed direct registry limit) registry f d o x.1))
      (runBody (applyKeyed (memoized keep) registry limit depth) registry f d o r []) := by
  intro s q hs hq
  obtain ⟨b, hb, hq⟩ := bind_eq_ok hq
  cases hq
  have hpos : s.pos = x.1 := hs.pos
  rw [hbody, hr] at hb
  obtain ⟨a, ha, hgo⟩ := body_eval hb
  rw [app_eval ht hr₁] at ha
  obtain ⟨⟨v, inside⟩, happ, hv⟩ := bind_eq_ok ha
  cases hv
  obtain ⟨hcourse, hhit, hbarren⟩ := hhit s _ hs happ
  rcases hgo with ⟨rfl, hq⟩ | ⟨w, c, rfl, hc, hgo⟩
  · -- what is on the left has failed, and the base is matched
    obtain ⟨hcomes, hkept, hspared⟩ := comes_of_base H hbase hcourse.kept hq
    have hstarts : F.Starts (applyKeyed direct registry limit) registry f d o x.1
        (Answer.outcome (b.value, b.state)) := by
      rw [← hpos]
      exact hcomes
    have hhead : b.state.memo.get? x = inside.memo.get? x := hspared.get x hx
    refine ⟨hcourse.spared hx ho hkept hspared, ⟨fun he => ⟨hstarts, ?_⟩, fun he => ⟨hstarts, ?_⟩,
      fun he => ?_⟩, fun he _ z hz => ?_⟩
    · exact hhead.trans (hhit.active he).2
    · exact hhead.trans (hhit.done he).2
    · cases (hhit.done he).1
    · rw [hspared.get z (ho z hz)]
      exact hbarren he rfl z hz
  · rw [evalSequence_last (by simp [steps]) w .nil] at hc
    obtain ⟨hcomes, hkept, hspared⟩ := comes_of_evalSequence H hsteps hcourse.kept hc
    have hcourse' := hcourse.spared hx ho hkept hspared
    have hidle {met : Bool} (he : s.memo.get? x = some (.active met)) : False := by
      cases (hhit.active he).1
    have hgrown {stop : Nat} {h : Height} (he : s.memo.get? x = some (.done none stop h)) :
        False := by
      cases (hhit.done he).1
    have hstep {seed : Value} {stop : Nat} {h : Height}
        (he : s.memo.get? x = some (.done (some seed) stop h)) :
        F.Step (applyKeyed direct registry limit) registry f d o x.1 seed stop
          (Answer.outcome (c.value, c.state)) := by
      cases (hhit.done he).1
      rw [← hpos]
      exact hcomes
    rcases hgo with ⟨hv, rfl⟩ | ⟨hv, hq⟩
    · refine ⟨hcourse', ⟨fun he => (hidle he).elim, fun he => (hgrown he).elim,
        fun he => ⟨?_, .inl ⟨?_, hstep he⟩⟩⟩, fun he => (hidle he).elim⟩
      · exact (hspared.get x hx).trans (hhit.done he).2
      · simp only [Answer.outcome, Option.isSome_map]
        exact hv
    · -- the step has failed, and the base is matched once more, in a scope that binds more
      have hback : Gauged registry limit S f (c.state.moveTo s.pos).memo .empty := hkept
      obtain ⟨hagain, hkept', hspared'⟩ := comes_of_base H hbase hback hq
      refine ⟨hcourse'.spared hx ho hkept' hspared', ⟨fun he => (hidle he).elim,
        fun he => (hgrown he).elim, fun he => ⟨?_, .inr ⟨?_, ?_⟩⟩⟩, fun he => (hidle he).elim⟩
      · exact ((hspared'.get x hx).trans (hspared.get x hx)).trans (hhit.done he).2
      · have hfail := hstep he
        rw [hv] at hfail
        exact hfail
      · intro first hfirst
        rw [← hpos] at hfirst
        exact hagain.unique (hfirst.within .nil)

end LeftFold

end Packrat
