import Packrat.Proofs.Evaluation

/-!
# What the scope has to do with it

A body has one scope, which is handed from part to part, so what a part does may depend on what was
bound long before it, in parts that have failed since. How far that goes can be read off the part:
it reads the names that its actions mention, and binds the names that stand in it.

Two evaluations of one expression are compared that start in different scopes. The relation between
the scopes is left open. It has to be kept by what the expression binds, and its actions must come
to the same in related scopes.

* `Action.vars`, `Expr.boundBy`, `Expr.readBy`: which names are read and bound.
* `Tracks`: one computation comes to what another comes to.
* `Scoping`: what is asked of a relation between scopes.
* `Expr.eval_tracks`: then an expression is evaluated alike in related scopes.
* `Scoping.unread`, `Scoping.within`: so in scopes that differ at names it does not read, and in one
  that binds more than the other.
* `Expr.eval_keeps`: an expression changes the scope only at names that it binds.
-/

namespace Packrat

/-! ### Names -/

namespace Action

mutual

/-- The names that an action reads. -/
def vars : Action → List String
  | literal _ => []
  | var name => [name]
  | list items => varsAll items
  | node _ args => varsAll args
  | call _ args => varsAll args

/-- The names that the actions of a list read. -/
def varsAll : List Action → List String
  | [] => []
  | a :: as => vars a ++ varsAll as

end

end Action

namespace Expr

/-- The actions that stand in an expression itself. -/
def actions : Expr → List Action
  | .apply _ args => args
  | super _ args => args
  | foreign _ _ args => args
  | action a => [a]
  | guard a => [a]
  | _ => []

/-- The names that are bound by some expressions themselves. -/
def boundBy (es : List Expr) : List String :=
  es.filterMap fun
    | bind name _ => some name
    | _ => none

/-- The names that are read by some expressions themselves. -/
def readBy (es : List Expr) : List String := es.flatMap fun e => Action.varsAll e.actions

end Expr

namespace Scope

variable {s s' : Scope} {x name : String} {v : Value} {names : List String}

theorem get?_insert : (s.insert name v).get? x = if x = name then some v else s.get? x := by
  unfold insert get?
  rw [List.lookup_cons]
  by_cases hx : x = name
  · simp [hx]
  · rw [beq_false_of_ne hx, if_neg hx]
    dsimp only
    -- only entries of the name are taken out
    induction s with
    | nil => rfl
    | cons entry rest ih =>
      obtain ⟨y, w⟩ := entry
      by_cases hy : y = name
      · rw [List.filter_cons_of_neg (by simpa using hy), ih, List.lookup_cons,
          beq_false_of_ne (hy ▸ hx)]
      · rw [List.filter_cons_of_pos (by simpa using hy), List.lookup_cons, List.lookup_cons, ih]

/-- **Nothing has changed but some names.** -/
def Keeps (names : List String) (s s' : Scope) : Prop := ∀ x, x ∉ names → s'.get? x = s.get? x

/-- All that is bound in one scope is bound in another, too, to the same values. -/
def Within (s s' : Scope) : Prop := ∀ x v, s.get? x = some v → s'.get? x = some v

theorem Keeps.refl (names : List String) (s : Scope) : s.Keeps names s := fun _ _ => rfl

theorem Keeps.symm (h : s.Keeps names s') : s'.Keeps names s := fun x hx => (h x hx).symm

/-- One of the names may be bound anew. -/
theorem Keeps.bound (h : s.Keeps names s') (hn : name ∈ names) : s.Keeps names (s'.insert name v) := by
  intro x hx
  have hne : x ≠ name := fun he => hx (he ▸ hn)
  rw [get?_insert, if_neg hne]
  exact h x hx

/-- A name is bound to the same value in both. -/
theorem Keeps.insert (h : s.Keeps names s') : (s.insert name v).Keeps names (s'.insert name v) := by
  intro x hx
  rw [get?_insert, get?_insert, h x hx]

theorem Within.insert (h : s.Within s') : (s.insert name v).Within (s'.insert name v) := by
  intro x w hx
  rw [get?_insert] at hx ⊢
  split at hx
  next he => rw [if_pos he]; exact hx
  next he => rw [if_neg he]; exact h x w hx

theorem Within.nil : Within [] s := fun _ _ h => by cases h

end Scope

/-! ### Computations that track one another -/

/-- **The second computation tracks the first**: it comes to something related if the first comes to
something, and ends in the same error if the first does. Nothing is said where the first ends in an
exempt error. -/
def TracksExcept {ε α β : Type} (exempt : ε → Prop) (R : α → β → Prop) (m : Except ε α)
    (m' : Except ε β) : Prop :=
  match m with
  | .error e => exempt e ∨ m' = .error e
  | .ok a => ∃ b, m' = .ok b ∧ R a b

/-- Tracking of which no error is exempt, or if `loose` all are. -/
abbrev Tracks {ε α β : Type} (loose : Prop) (R : α → β → Prop) (m : Except ε α)
    (m' : Except ε β) : Prop :=
  TracksExcept (fun _ => loose) R m m'

theorem TracksExcept.bind {ε α β γ δ : Type} {exempt : ε → Prop} {R : α → β → Prop}
    {S : γ → δ → Prop} {m : Except ε α} {m' : Except ε β} {j : α → Except ε γ}
    {k : β → Except ε δ} (h : TracksExcept exempt R m m')
    (hjk : ∀ a b, R a b → TracksExcept exempt S (j a) (k b)) :
    TracksExcept exempt S (m >>= j) (m' >>= k) := by
  cases m with
  | error e =>
    refine h.imp_right fun hm => ?_
    rw [hm]
    rfl
  | ok a =>
    obtain ⟨b, rfl, hab⟩ := h
    exact hjk a b hab

/-- Where no error is exempt, what the second computation comes to is what the first comes to. -/
theorem TracksExcept.of_ok {ε α β : Type} {R : α → β → Prop} {m : Except ε α} {m' : Except ε β}
    {b : β} (h : TracksExcept (fun _ => False) R m m') (hm : m' = .ok b) :
    ∃ a, m = .ok a ∧ R a b := by
  cases m with
  | error e =>
    have he : m' = .error e := h.resolve_left id
    rw [he] at hm
    cases hm
  | ok a =>
    obtain ⟨b', hb', hab⟩ := h
    rw [hm] at hb'
    cases hb'
    exact ⟨a, rfl, hab⟩

theorem Tracks.ofAction {α β : Type} {loose : Prop} {R : α → β → Prop} {m : Except Cause α}
    {m' : Except Cause β} (h : Tracks loose R m m') :
    Tracks loose R (Halt.ofAction m) (Halt.ofAction m') := by
  cases m with
  | error e =>
    refine h.imp_right fun hm => ?_
    rw [hm]
    rfl
  | ok a =>
    obtain ⟨b, rfl, hab⟩ := h
    exact ⟨b, rfl, hab⟩

namespace Action

variable {registry : Registry} {loose : Prop} {s s' : Scope}

/-- Actions of a list come to the same if each of them does. -/
theorem evalAll_tracks_of : ∀ {as : List Action},
    (∀ a ∈ as, Tracks loose Eq (eval registry s a) (eval registry s' a)) →
      Tracks loose Eq (evalAll registry s as) (evalAll registry s' as)
  | [], _ => ⟨_, by rw [evalAll], rfl⟩
  | a :: as, h => by
    rw [evalAll, evalAll]
    refine (h a (.head _)).bind fun v v' hv => ?_
    refine (evalAll_tracks_of fun b hb => h b (.tail _ hb)).bind fun vs vs' hvs => ?_
    rw [hv, hvs]
    exact ⟨_, rfl, rfl⟩

mutual

/-- **An action is about the names that it reads**: it comes to the same in a scope that binds these
to the same values, or, if `loose`, that binds more of them. -/
theorem eval_tracks : ∀ a : Action,
    (∀ x ∈ a.vars, s'.get? x = s.get? x ∨ (loose ∧ s.get? x = none)) →
      Tracks loose Eq (eval registry s a) (eval registry s' a)
  | literal v, _ => ⟨v, by rw [eval], rfl⟩
  | var name, h => by
    rw [eval, eval]
    rcases h name (by simp [vars]) with hx | ⟨hl, hx⟩
    · rw [hx]
      cases s.get? name with
      | none => exact .inr rfl
      | some v => exact ⟨v, rfl, rfl⟩
    · rw [hx]
      exact .inl hl
  | list items, h => by
    rw [eval, eval]
    refine (evalAll_tracks items (by simpa only [vars] using h)).bind fun vs vs' hvs => ?_
    rw [hvs]
    exact ⟨_, rfl, rfl⟩
  | node tag args, h => by
    rw [eval, eval]
    refine (evalAll_tracks args (by simpa only [vars] using h)).bind fun vs vs' hvs => ?_
    rw [hvs]
    exact ⟨_, rfl, rfl⟩
  | call func args, h => by
    rw [eval, eval]
    cases registry.get? func with
    | none => exact .inr rfl
    | some f =>
      refine (evalAll_tracks args (by simpa only [vars] using h)).bind fun vs vs' hvs => ?_
      rw [hvs]
      cases hf : f vs' with
      | error c => exact .inr rfl
      | ok v => exact ⟨v, rfl, rfl⟩

theorem evalAll_tracks : ∀ as : List Action,
    (∀ x ∈ varsAll as, s'.get? x = s.get? x ∨ (loose ∧ s.get? x = none)) →
      Tracks loose Eq (evalAll registry s as) (evalAll registry s' as)
  | [], _ => ⟨_, by rw [evalAll], rfl⟩
  | a :: as, h => by
    rw [evalAll, evalAll]
    refine (eval_tracks a fun x hx => h x (by simp [varsAll, hx])).bind fun v v' hv => ?_
    refine (evalAll_tracks as fun x hx => h x (by simp [varsAll, hx])).bind fun vs vs' hvs => ?_
    rw [hv, hvs]
    exact ⟨_, rfl, rfl⟩

end

end Action

/-! ### Expressions -/

/-- **What is asked of a relation between scopes** in which some expressions are evaluated: what
they bind is bound in both, and their actions come to the same. -/
structure Scoping (registry : Registry) (loose : Prop) (R : Scope → Scope → Prop)
    (es : List Expr) : Prop where
  bind {s s' : Scope} {name : String} {v : Value} : name ∈ Expr.boundBy es → R s s' →
    R (s.insert name v) (s'.insert name v)
  action {s s' : Scope} {a : Action} (e : Expr) : e ∈ es → a ∈ e.actions → R s s' →
    Tracks loose Eq (a.eval registry s) (a.eval registry s')

theorem Tracks.refl {ε α : Type} {loose : Prop} (m : Except ε α) : Tracks loose Eq m m := by
  cases m with
  | error e => exact .inr rfl
  | ok a => exact ⟨a, rfl, rfl⟩

theorem Action.mem_varsAll {x : String} {a : Action} : ∀ {as : List Action}, a ∈ as → x ∈ a.vars →
    x ∈ varsAll as
  | _ :: _, .head _, hx => by rw [varsAll]; exact List.mem_append_left _ hx
  | _ :: _, .tail _ ha, hx => by rw [varsAll]; exact List.mem_append_right _ (mem_varsAll ha hx)

namespace Scoping

variable (registry : Registry)

/-- One evaluation tracks itself, and meanwhile only what is bound changes. -/
theorem keeps (start : Scope) (es : List Expr) :
    Scoping registry False (fun s s' => s = s' ∧ start.Keeps (Expr.boundBy es) s) es where
  bind := by
    rintro s _ name v hn ⟨rfl, hk⟩
    exact ⟨rfl, hk.bound hn⟩
  action := by
    rintro s _ a e - - ⟨rfl, -⟩
    exact .refl _

/-- One evaluation tracks itself in the very scope that it started in, where nothing is bound. -/
theorem unbound (start : Scope) {es : List Expr} (h : Expr.boundBy es = []) :
    Scoping registry False (fun s s' => s = start ∧ s' = start) es where
  bind hn := by
    rw [h] at hn
    cases hn
  action := by
    rintro s s' a e - - ⟨rfl, rfl⟩
    exact .refl _

/-- Names that are not read do not matter. -/
theorem unread {names : List String} {es : List Expr} (h : ∀ x ∈ Expr.readBy es, x ∉ names) :
    Scoping registry False (Scope.Keeps names) es where
  bind _ hs := hs.insert
  action e he ha hs := by
    refine Action.eval_tracks _ fun x hx => .inl (hs x (h x ?_))
    exact List.mem_flatMap.2 ⟨e, he, Action.mem_varsAll ha hx⟩

/-- What comes to something comes to the same where more is bound. -/
theorem within (es : List Expr) : Scoping registry True Scope.Within es where
  bind _ hs := hs.insert
  action {s s' _} _ _ _ hs := by
    refine Action.eval_tracks _ fun x _ => ?_
    cases hx : s.get? x with
    | none => exact .inr ⟨trivial, rfl⟩
    | some v => exact .inl (hs x v hx)

end Scoping

theorem Scoping.mono {registry : Registry} {loose : Prop} {R : Scope → Scope → Prop}
    {es fs : List Expr} (h : Scoping registry loose R es) (hsub : fs ⊆ es) :
    Scoping registry loose R fs where
  bind hn := h.bind (List.filterMap_subset _ hsub hn)
  action e he := h.action e (hsub he)

/-- Replies that differ in their scopes only, which are related. -/
inductive Reply.Under {φ : Type} (R : Scope → Scope → Prop) : Reply φ → Reply φ → Prop
  | mk {v : Option Value} {state : State φ} {s s' : Scope} (h : R s s') :
    Under R ⟨v, s, state⟩ ⟨v, s', state⟩

variable {φ : Type} {loose : Prop} {R : Scope → Scope → Prop}

/-- Rounds of a repetition track one another if the body does. -/
theorem repeatRounds_tracks {body : Run φ} (min : Nat) (max : Option Nat)
    (hb : ∀ s s' st, R s s' → Tracks loose (Reply.Under R) (body s st) (body s' st)) (fuel : Nat)
    (taken : Array Value) {s s' : Scope} (st : State φ) (hs : R s s') :
    Tracks loose (fun a b => b.1 = a.1 ∧ b.2.2 = a.2.2 ∧ R a.2.1 b.2.1)
      (repeatRounds body min max fuel taken s st) (repeatRounds body min max fuel taken s' st) := by
  induction fuel generalizing taken s s' st with
  | zero =>
    unfold repeatRounds
    split
    · exact ⟨_, rfl, rfl, rfl, hs⟩
    · exact .inr rfl
  | succ fuel ih =>
    unfold repeatRounds
    split
    · exact ⟨_, rfl, rfl, rfl, hs⟩
    · refine (hb s s' st hs).bind fun r r' hr => ?_
      obtain @⟨v, state, scope, scope', hscope⟩ := hr
      cases v with
      | none => exact ⟨_, rfl, rfl, rfl, hscope⟩
      | some v =>
        dsimp only
        split
        · exact ⟨_, rfl, rfl, rfl, hscope⟩
        · exact ih _ _ hscope

theorem evalRepeat_tracks {body : Run φ} (min : Nat) (max : Option Nat) (size : Nat)
    (hb : ∀ s s' st, R s s' → Tracks loose (Reply.Under R) (body s st) (body s' st))
    {s s' : Scope} (st : State φ) (hs : R s s') :
    Tracks loose (Reply.Under R) (evalRepeat body min max size s st)
      (evalRepeat body min max size s' st) := by
  refine (repeatRounds_tracks min max hb _ _ st hs).bind fun a b hab => ?_
  obtain ⟨taken, scope, state⟩ := a
  obtain ⟨taken', scope', state'⟩ := b
  obtain ⟨rfl, rfl, hscope⟩ := hab
  dsimp only
  split
  · exact ⟨_, rfl, .mk hscope⟩
  · exact ⟨_, rfl, .mk hscope⟩

variable [Account φ]

theorem evalLookahead_tracks {body : Run φ} (negated : Bool)
    (hb : ∀ s s' st, R s s' → Tracks loose (Reply.Under R) (body s st) (body s' st))
    {s s' : Scope} (st : State φ) (hs : R s s') :
    Tracks loose (Reply.Under R) (evalLookahead body negated s st)
      (evalLookahead body negated s' st) := by
  unfold evalLookahead
  cases negated with
  | false =>
    refine (hb s s' _ hs).bind fun r r' hr => ?_
    obtain ⟨hscope⟩ := hr
    exact ⟨_, rfl, .mk hscope⟩
  | true =>
    refine (hb s s' _ hs).bind fun r r' hr => ?_
    obtain ⟨hscope⟩ := hr
    exact ⟨_, rfl, .mk hscope⟩

theorem evalNested_tracks {body : Frame → Run φ} (frame : Frame)
    (hb : ∀ inner s s' st, R s s' →
      Tracks loose (Reply.Under R) (body inner s st) (body inner s' st))
    {s s' : Scope} (st : State φ) (hs : R s s') :
    Tracks loose (Reply.Under R) (evalNested body frame s st) (evalNested body frame s' st) := by
  unfold evalNested
  dsimp only
  cases frame.enter? st.pos with
  | none => exact ⟨_, rfl, .mk hs⟩
  | some inner =>
    refine (hb inner s s' _ hs).bind fun r r' hr => ?_
    obtain @⟨v, state, scope, scope', hscope⟩ := hr
    cases v with
    | none => exact ⟨_, rfl, .mk hscope⟩
    | some v =>
      dsimp only
      split
      · exact ⟨_, rfl, .mk hscope⟩
      · exact ⟨_, rfl, .mk hscope⟩

namespace Expr

variable {apply : Applier φ} {registry : Registry}

/-- Applications come to the same if their arguments do. -/
theorem application_tracks {e : Expr} {ctx : Context} {s s' : Scope} {args : List Action}
    {meaning : Except Cause (Grammar × Target)}
    (he : e.application? ctx.dispatch ctx.owner = some (args, meaning))
    (ha : ∀ a ∈ args, Tracks loose Eq (a.eval registry s) (a.eval registry s')) (st : State φ)
    (hs : R s s') :
    Tracks loose (Reply.Under R) (e.eval apply registry ctx s st)
      (e.eval apply registry ctx s' st) := by
  rw [eval_application he, eval_application he]
  refine (Action.evalAll_tracks_of ha).ofAction.bind fun vs vs' hvs => ?_
  rw [hvs]
  cases meaning with
  | error c => exact .inr rfl
  | ok gt =>
    dsimp only
    cases applyTarget apply ctx.frame gt.1 gt.2 vs' st with
    | error h => exact .inr rfl
    | ok r => exact ⟨_, rfl, .mk hs⟩

mutual

/-- **An expression is evaluated alike in related scopes**, whatever rules are applied. -/
theorem eval_tracks : ∀ (e : Expr) (ctx : Context) {s s' : Scope} (st : State φ),
    Scoping registry loose R e.subexprs → R s s' →
      Tracks loose (Reply.Under R) (e.eval apply registry ctx s st)
        (e.eval apply registry ctx s' st)
  | any, _, _, _, _, _, hs => by
    rw [eval, eval]
    exact ⟨_, rfl, .mk hs⟩
  | terminal _, _, _, _, _, _, hs => by
    rw [eval, eval]
    exact ⟨_, rfl, .mk hs⟩
  | literal _, _, _, _, _, _, hs => by
    rw [eval, eval]
    exact ⟨_, rfl, .mk hs⟩
  | range _ _, _, _, _, _, _, hs => by
    rw [eval, eval]
    exact ⟨_, rfl, .mk hs⟩
  | sequence items, ctx, s, s', st, h, hs => by
    rw [eval, eval]
    refine (evalSequence_tracks items _ .nil st (h.mono (by simp [subexprs])) hs).bind
      fun r r' hr => ⟨_, rfl, ?_⟩
    obtain @⟨v, state, scope, scope', hscope⟩ := hr
    cases v <;> exact .mk hscope
  | choice alternatives, ctx, s, s', st, h, hs => by
    rw [eval, eval]
    exact evalChoice_tracks alternatives ctx st (h.mono (by simp [subexprs])) hs
  | repeated body min max, ctx, s, s', st, h, hs => by
    rw [eval, eval]
    refine evalRepeat_tracks min max _ (fun s s' st hs => ?_) st hs
    exact eval_tracks body ctx st (h.mono (by simp [subexprs])) hs
  | lookahead negated body, ctx, s, s', st, h, hs => by
    rw [eval, eval]
    refine evalLookahead_tracks negated (fun s s' st hs => ?_) st hs
    exact eval_tracks body ctx st (h.mono (by simp [subexprs])) hs
  | .apply rule args, ctx, s, s', st, h, hs =>
    application_tracks rfl (fun _ ha => h.action _ (.head _) ha hs) st hs
  | super rule args, ctx, s, s', st, h, hs =>
    application_tracks rfl (fun _ ha => h.action _ (.head _) ha hs) st hs
  | foreign grammar rule args, ctx, s, s', st, h, hs =>
    application_tracks rfl (fun _ ha => h.action _ (.head _) ha hs) st hs
  | bind name body, ctx, s, s', st, h, hs => by
    rw [eval, eval]
    refine (eval_tracks body ctx st (h.mono (by simp [subexprs])) hs).bind fun r r' hr => ?_
    obtain @⟨v, state, scope, scope', hscope⟩ := hr
    cases v with
    | none => exact ⟨_, rfl, .mk hscope⟩
    | some v => exact ⟨_, rfl, .mk (h.bind (by simp [boundBy, subexprs]) hscope)⟩
  | action a, ctx, s, s', st, h, hs => by
    rw [eval, eval]
    refine (h.action _ (.head _) (.head _) hs).ofAction.bind fun v v' hv => ?_
    rw [hv]
    exact ⟨_, rfl, .mk hs⟩
  | guard a, ctx, s, s', st, h, hs => by
    rw [eval, eval]
    refine (h.action _ (.head _) (.head _) hs).ofAction.bind fun v v' hv => ?_
    rw [hv]
    split
    · exact ⟨_, rfl, .mk hs⟩
    · exact ⟨_, rfl, .mk hs⟩
  | nested body, ctx, s, s', st, h, hs => by
    rw [eval, eval]
    refine evalNested_tracks _ (fun inner s s' st hs => ?_) st hs
    exact eval_tracks body _ st (h.mono (by simp [subexprs])) hs
  | capture body, ctx, s, s', st, h, hs => by
    rw [eval, eval]
    refine (eval_tracks body ctx st (h.mono (by simp [subexprs])) hs).bind fun r r' hr => ?_
    obtain ⟨hscope⟩ := hr
    exact ⟨_, rfl, .mk hscope⟩

theorem evalSequence_tracks : ∀ (es : List Expr) (ctx : Context) (last : Value) {s s' : Scope}
    (st : State φ), Scoping registry loose R (subexprsAll es) → R s s' →
      Tracks loose (Reply.Under R) (evalSequence apply registry es ctx last s st)
        (evalSequence apply registry es ctx last s' st)
  | [], _, _, _, _, _, _, hs => by
    rw [evalSequence, evalSequence]
    exact ⟨_, rfl, .mk hs⟩
  | e :: es, ctx, last, s, s', st, h, hs => by
    rw [evalSequence, evalSequence]
    refine (eval_tracks e ctx st (h.mono (by simp [subexprsAll])) hs).bind fun r r' hr => ?_
    obtain @⟨v, state, scope, scope', hscope⟩ := hr
    cases v with
    | none => exact ⟨_, rfl, .mk hscope⟩
    | some v => exact evalSequence_tracks es ctx v _ (h.mono (by simp [subexprsAll])) hscope

theorem evalChoice_tracks : ∀ (es : List Expr) (ctx : Context) {s s' : Scope} (st : State φ),
    Scoping registry loose R (subexprsAll es) → R s s' →
      Tracks loose (Reply.Under R) (evalChoice apply registry es ctx s st)
        (evalChoice apply registry es ctx s' st)
  | [], _, _, _, _, _, hs => by
    rw [evalChoice, evalChoice]
    exact ⟨_, rfl, .mk hs⟩
  | e :: es, ctx, s, s', st, h, hs => by
    rw [evalChoice, evalChoice]
    refine (eval_tracks e ctx st (h.mono (by simp [subexprsAll])) hs).bind fun r r' hr => ?_
    obtain @⟨v, state, scope, scope', hscope⟩ := hr
    cases v with
    | some v => exact ⟨_, rfl, .mk hscope⟩
    | none => exact evalChoice_tracks es ctx _ (h.mono (by simp [subexprsAll])) hscope

end

/-- **An expression changes the scope only at names that it binds**, whatever it comes to. -/
theorem eval_keeps {e : Expr} {ctx : Context} {s : Scope} {st : State φ} {r : Reply φ}
    (h : e.eval apply registry ctx s st = .ok r) : s.Keeps (boundBy e.subexprs) r.scope := by
  have htracks : Tracks False _ (e.eval apply registry ctx s st) (e.eval apply registry ctx s st) :=
    eval_tracks e ctx st (.keeps registry s e.subexprs) ⟨rfl, .refl _ s⟩
  rw [h] at htracks
  obtain ⟨r', -, hr⟩ := htracks
  obtain ⟨hscope⟩ := hr
  exact hscope.2

/-- **An expression that binds nothing leaves the scope as it is.** -/
theorem eval_scope {e : Expr} (hb : boundBy e.subexprs = []) {ctx : Context} {s : Scope}
    {st : State φ} {r : Reply φ} (h : e.eval apply registry ctx s st = .ok r) : r.scope = s := by
  have htracks : Tracks False _ (e.eval apply registry ctx s st) (e.eval apply registry ctx s st) :=
    eval_tracks e ctx st (.unbound registry s hb) ⟨rfl, rfl⟩
  rw [h] at htracks
  obtain ⟨r', -, hr⟩ := htracks
  obtain ⟨hscope⟩ := hr
  exact hscope.1

end Expr

end Packrat
