import Packrat.Proofs.Application
import Packrat.Proofs.Numerals
import Packrat.Proofs.Runs
import Packrat.Proofs.Scopes
import Packrat.Proofs.Tables

/-!
# Grammars that keep to kinds

Which kind of value a rule yields, and which kind of value each of its names is bound to, can be
written down once for a grammar; and whether the rules keep to it can be computed, one rule at a
time. If they do, then no match of a text by such a grammar has an action that fails, and every rule
yields a value of its kind.

Names that are bound stay bound until a rule ends, so it is enough to know which names are bound for
sure.

* `Kinding`: the kinds of the values of rules and names.
* `Action.checks`, `Expr.check`: whether an action or an expression keeps to a kinding.
* `Action.checks_sound`, `Expr.check_sound`: then its value is of the kind, and no action fails.
* `Kinding.Covers`: all rules of a grammar keep to a kinding.
* `Kinding.Covers.matchAll`: then so does what the engine gives.
-/

namespace Packrat

/-- **A kinding**: the kind of the values that a rule yields, and of those that a name of a rule is
bound to. -/
structure Kinding where
  yields : String → Kind
  names : (rule : String) → (name : String) → Kind

/-! ### Scopes -/

namespace Scope

variable {vars : String → Kind} {scope : Scope} {x name : String} {v : Value}

/-- What names are bound to is of their kinds. -/
def Kinded (vars : String → Kind) (scope : Scope) : Prop :=
  ∀ x v, scope.get? x = some v → (vars x).Holds v

/-- A name is bound. -/
def Binds (scope : Scope) (x : String) : Prop := ∃ v, scope.get? x = some v

theorem Kinded.insert (h : scope.Kinded vars) (hv : (vars name).Holds v) :
    (scope.insert name v).Kinded vars := by
  intro x w hw
  rw [get?_insert] at hw
  split at hw
  next hx =>
    cases hw
    rw [hx]
    exact hv
  next => exact h x w hw

theorem Binds.insert (h : x = name ∨ scope.Binds x) : (scope.insert name v).Binds x := by
  unfold Binds
  rw [get?_insert]
  split
  · exact ⟨v, rfl⟩
  next hx => exact h.resolve_left hx

/-- **The scope of a rule that starts** on arguments of the kinds of its parameters. -/
theorem ofParams_kinded {params : List String} {args : List Value}
    (h : List.Forall₂ (fun p v => (vars p).Holds v) params args) :
    (ofParams params args).Kinded vars ∧ ∀ p ∈ params, (ofParams params args).Binds p := by
  -- the arguments are bound one after the other, on top of what is bound before
  have hfold : ∀ {params : List String} {args : List Value},
      List.Forall₂ (fun p v => (vars p).Holds v) params args →
      ∀ scope : Scope, scope.Kinded vars →
        ((params.zip args).foldl (fun s entry => s.insert entry.1 entry.2) scope).Kinded vars ∧
          ∀ p, p ∈ params ∨ scope.Binds p →
            ((params.zip args).foldl (fun s entry => s.insert entry.1 entry.2) scope).Binds p := by
    intro params args h
    induction h with
    | nil => exact fun scope hs => ⟨hs, fun p hp => hp.resolve_left (by simp)⟩
    | @cons p v params args hv _ ih =>
      intro scope hs
      obtain ⟨hk, hb⟩ := ih (scope.insert p v) (hs.insert hv)
      refine ⟨hk, fun q hq => hb q ?_⟩
      rcases hq with hq | hq
      · exact (List.mem_cons.1 hq).symm.imp_right fun he => .insert (.inl he)
      · exact .inr (.insert (.inr hq))
  obtain ⟨hk, hb⟩ := hfold h [] fun x v hv => by cases hv
  exact ⟨hk, fun p hp => hb p (.inl hp)⟩

end Scope

/-! ### Actions -/

namespace Action

mutual

/-- **Whether an action is known to give a value of a kind**, where names are bound to values of the
kinds `vars`, and those of `bound` are bound for sure. -/
def checks (vars : String → Kind) (bound : List String) : Action → Kind → Bool
  | literal v, k => k.admits v
  | var name, k => decide (name ∈ bound) && (vars name).fits k
  | list items, .list each => checksAll vars bound items (items.map fun _ => each)
  | list _, _ => false
  | node tag args, k =>
    match k.children? tag with
    | some ks => checksAll vars bound args ks
    | none => false
  | call func args, k =>
    match k.arguments? func with
    | some ks => checksAll vars bound args ks
    | none => false

/-- Whether actions are known to give values of some kinds, one by one. -/
def checksAll (vars : String → Kind) (bound : List String) : List Action → List Kind → Bool
  | [], [] => true
  | a :: as, k :: ks => a.checks vars bound k && checksAll vars bound as ks
  | _, _ => false

end

variable {vars : String → Kind} {bound : List String} {scope : Scope}

/-- Values that are all of one kind. -/
theorem holds_of_forall₂ {each : Kind} {as : List Action} {vs : List Value}
    (h : List.Forall₂ Kind.Holds (as.map fun _ => each) vs) : ∀ v ∈ vs, each.Holds v := by
  induction as generalizing vs with
  | nil =>
    cases h
    exact fun v hv => by cases hv
  | cons a as ih =>
    obtain _ | ⟨hv, hs⟩ := h
    exact List.forall_mem_cons.2 ⟨hv, ih hs⟩

mutual

/-- **An action that is known to give a value of a kind does so.** -/
theorem checks_sound (hk : scope.Kinded vars) (hb : ∀ x ∈ bound, scope.Binds x) :
    ∀ (a : Action) {k : Kind}, a.checks vars bound k = true →
      ∃ v, a.eval .standard scope = .ok v ∧ k.Holds v
  | literal v, k, h => ⟨v, rfl, Kind.holds_of_admits h⟩
  | var name, k, h => by
    simp only [checks, Bool.and_eq_true, decide_eq_true_eq] at h
    obtain ⟨v, hv⟩ := hb name h.1
    exact ⟨v, by simp only [eval, hv], (hk name v hv).of_fits h.2⟩
  | list items, .list each, h => by
    obtain ⟨vs, hvs, hs⟩ := checksAll_sound hk hb items h
    exact ⟨.list vs, by simp only [eval, hvs]; rfl, vs, rfl, holds_of_forall₂ hs⟩
  | node tag args, k, h => by
    simp only [checks] at h
    split at h
    next ks hks =>
      obtain ⟨vs, hvs, hs⟩ := checksAll_sound hk hb args h
      exact ⟨.node tag vs, by simp only [eval, hvs]; rfl, Kind.node_holds hks hs⟩
    next => cases h
  | call func args, k, h => by
    simp only [checks] at h
    split at h
    next ks hks =>
      obtain ⟨vs, hvs, hs⟩ := checksAll_sound hk hb args h
      obtain ⟨f, v, hf, hv, hkv⟩ := Kind.call_holds hks hs
      exact ⟨v, by simp only [eval, hf, hvs]; exact hv, hkv⟩
    next => cases h

theorem checksAll_sound (hk : scope.Kinded vars) (hb : ∀ x ∈ bound, scope.Binds x) :
    ∀ (as : List Action) {ks : List Kind}, checksAll vars bound as ks = true →
      ∃ vs, evalAll .standard scope as = .ok vs ∧ List.Forall₂ Kind.Holds ks vs
  | [], [], _ => ⟨[], rfl, .nil⟩
  | a :: as, k :: ks, h => by
    simp only [checksAll, Bool.and_eq_true] at h
    obtain ⟨v, hv, hkv⟩ := checks_sound hk hb a h.1
    obtain ⟨vs, hvs, hkvs⟩ := checksAll_sound hk hb as h.2
    exact ⟨v :: vs, by simp only [evalAll, hv, hvs]; rfl, .cons hkv hkvs⟩

end

end Action

/-! ### Expressions -/

namespace Expr

/-- Whether a name may be applied to actions for a value of a kind. -/
def checkApply (K : Kinding) (g : Grammar) (vars : String → Kind) (name : String)
    (args : List Action) (k : Kind) (bound : List String) : Bool :=
  match g.target? name with
  | some (.rule _ r) =>
    Action.checksAll vars bound args (r.params.map (K.names r.name)) && (K.yields r.name).fits k
  | some (.builtin .token) => Action.checksAll vars bound args [.text] && Kind.text.fits k
  | some (.builtin .space) | some (.builtin .digit) | some (.builtin .letter) =>
    args.isEmpty && Kind.text.fits k
  | some (.builtin .end) => args.isEmpty && Kind.anything.fits k
  | _ => false

/-- Whether what is captured is known to be of a kind. -/
def checkCapture (g : Grammar) (body : Expr) (k : Kind) : Bool :=
  match k, g.target? "digit" with
  | .numeral, some (.builtin .digit) => decide (body = Notation.numeral)
  | k, _ => Kind.text.fits k

/-- The kind that the rounds of a repetition must be of for its value to be of a kind. -/
def roundKind? (max : Option Nat) : Kind → Option Kind
  | .anything => some .anything
  | .list each => if max = none then some each else none
  | _ => none

mutual

/-- **Whether an expression is known to give a value of a kind** if it matches; then the names that
are bound for sure. Nothing is known of the forms of expressions that the notation is not written
with. -/
def check (K : Kinding) (g : Grammar) (vars : String → Kind) :
    Expr → Kind → (bound : List String) → Option (List String)
  | any, k, bound | literal _, k, bound => if Kind.text.fits k then some bound else none
  | sequence items, k, bound => checkSequence K g vars items k bound
  | choice alternatives, k, bound =>
    if checkChoice K g vars alternatives k bound then some bound else none
  | repeated body _ max, k, bound =>
    match roundKind? max k with
    | some each => (check K g vars body each bound).map fun _ => bound
    | none => none
  | lookahead negated body, k, bound =>
    if negated && Kind.anything.fits k then
      (check K g vars body .anything bound).map fun _ => bound
    else none
  | .apply name args, k, bound =>
    if checkApply K g vars name args k bound then some bound else none
  | bind name body, k, bound =>
    if (vars name).fits k then (check K g vars body (vars name) bound).map (name :: ·) else none
  | action a, k, bound => if a.checks vars bound k then some bound else none
  | capture body, k, bound =>
    if checkCapture g body k then check K g vars body .anything bound else none
  | terminal _, _, _ | range _ _, _, _ | super _ _, _, _ | foreign _ _ _, _, _ | guard _, _, _
  | nested _, _, _ => none

/-- The items of a sequence one after the other; the value is that of the last. -/
def checkSequence (K : Kinding) (g : Grammar) (vars : String → Kind) :
    List Expr → Kind → (bound : List String) → Option (List String)
  | [], _, _ => none
  | [e], k, bound => check K g vars e k bound
  | e :: es, k, bound =>
    match check K g vars e .anything bound with
    | some bound => checkSequence K g vars es k bound
    | none => none

/-- All alternatives of a choice. -/
def checkChoice (K : Kinding) (g : Grammar) (vars : String → Kind) :
    List Expr → Kind → (bound : List String) → Bool
  | [], _, _ => true
  | e :: es, k, bound =>
    (check K g vars e k bound).isSome && checkChoice K g vars es k bound

end

end Expr

/-! ### Tables, answers and replies -/

/-- The ways in which a match may be cut off: for its depth, or for the rounds of a loop. -/
def Cut (limit : Nat) (h : Halt) : Prop := h = .fatal (.recursionLimit limit) ∨ h = .exhausted

namespace Kinding

variable {φ : Type}

/-- What a table holds is of the kinds of its rules. -/
def Table (K : Kinding) : Memo φ → Prop :=
  Memo.Every fun spot v _ _ => ∀ w, v = some w → (K.yields spot.2.rule).Holds w

/-- An answer whose value is of a kind. -/
structure Answers (K : Kinding) (k : Kind) (r : Answer φ) : Prop where
  table : K.Table r.2.memo
  value : ∀ v, r.1 = some v → k.Holds v

/-- A rule body is ready to go on: the names of `bound` are bound for sure. -/
structure Ready (K : Kinding) (vars : String → Kind) (bound : List String) (scope : Scope)
    (s : State φ) : Prop where
  table : K.Table s.memo
  kinded : scope.Kinded vars
  bound : ∀ x ∈ bound, scope.Binds x

/-- **A reply whose value is of a kind**: what was bound in `scope` stays bound, and after a match
the names of `bound` are bound as well. -/
structure Replies (K : Kinding) (vars : String → Kind) (k : Kind) (bound : List String)
    (scope : Scope) (r : Reply φ) : Prop where
  table : K.Table r.state.memo
  kinded : r.scope.Kinded vars
  kept : ∀ x, scope.Binds x → r.scope.Binds x
  value : ∀ v, r.value = some v → k.Holds v ∧ ∀ x ∈ bound, r.scope.Binds x

variable {K : Kinding} {vars : String → Kind} {k : Kind} {bound bound' : List String}
  {scope : Scope} {s : State φ} {r : Reply φ}

namespace Replies

/-- After any reply, what was bound before is still bound. -/
theorem ready (hr : K.Replies vars k bound' scope r) (h : K.Ready vars bound scope s) :
    K.Ready vars bound r.scope r.state :=
  ⟨hr.table, hr.kinded, fun x hx => hr.kept x (h.bound x hx)⟩

/-- A reply after another one. -/
theorem after {k' : Kind} {r' : Reply φ} (hr : K.Replies vars k' bound' scope r)
    (hr' : K.Replies vars k bound r.scope r') : K.Replies vars k bound scope r' :=
  ⟨hr'.table, hr'.kinded, fun x hx => hr'.kept x (hr.kept x hx), hr'.value⟩

/-- A failure says nothing about values. -/
theorem failed {k' : Kind} (hr : K.Replies vars k' bound' scope r) (hv : r.value = none) :
    K.Replies vars k bound scope r :=
  ⟨hr.table, hr.kinded, hr.kept, fun v h => by rw [hv] at h; cases h⟩

/-- A success without new names. -/
theorem of_value {v : Value} (h : K.Ready vars bound scope s) (hv : k.Holds v) :
    K.Replies vars k bound scope ⟨some v, scope, s⟩ :=
  ⟨h.table, h.kinded, fun _ hx => hx, fun w hw => by cases hw; exact ⟨hv, h.bound⟩⟩

theorem of_answer {a : Answer φ} (ha : K.Answers k a) (h : K.Ready vars bound scope s) :
    K.Replies vars k bound scope (.ofAnswer scope a) :=
  ⟨ha.table, h.kinded, fun _ hx => hx, fun v hv => ⟨ha.value v hv, h.bound⟩⟩

end Replies

theorem Answers.failure (h : K.Table s.memo) : K.Answers k (none, s) :=
  ⟨h, fun _ hv => by cases hv⟩

theorem Answers.accept (h : K.Table s.memo) {stop : Nat} {v : Value} (hv : k.Holds v) :
    K.Answers k (s.accept stop v) :=
  ⟨h, fun w hw => by cases hw; exact hv⟩

theorem Answers.of_fits {k' : Kind} {r : Answer φ} (h : K.Answers k r) (hk : k.fits k' = true) :
    K.Answers k' r :=
  ⟨h.table, fun v hv => (h.value v hv).of_fits hk⟩

/-! ### Single elements of a text -/

variable [Account φ] {f : Frame} {chars : Array Char}

theorem Answers.reject (h : K.Table s.memo) {label : String} : K.Answers k (s.reject f label) :=
  .failure h

theorem any_answers (hf : f.input = .text chars) (h : K.Table s.memo) :
    K.Answers .text (f.any s) := by
  unfold Frame.any
  rw [hf]
  dsimp only [Input.element?]
  cases chars[s.pos]? with
  | none => exact .reject h
  | some c => exact .accept h ⟨_, rfl⟩

theorem literal_answers (h : K.Table s.memo) {text : String} :
    K.Answers .text (f.literal text s) := by
  unfold Frame.literal
  split
  · exact .accept h ⟨_, rfl⟩
  · exact .reject h

theorem charIf_answers (h : K.Table s.memo) {test : Char → Bool} {label : String} :
    K.Answers .text (f.charIf test label s) := by
  unfold Frame.charIf
  split
  · split
    · exact .accept h ⟨_, rfl⟩
    · exact .reject h
  · exact .reject h

/-! ### Applications -/

/-- **Rules are applied in keeping with the kinds**, as a grammar sees them. -/
def Calls (K : Kinding) (g : Grammar) (limit : Nat) (f : Frame) (apply : Applier φ) : Prop :=
  ∀ name o r args s, g.resolve? name = some (o, r) →
    List.Forall₂ (fun p v => (K.names r.name p).Holds v) r.params args → K.Table s.memo →
      Meets (Cut limit) (K.Answers (K.yields r.name)) (apply f g o r args s)

/-- **All rules of a grammar keep to a kinding**; its white space takes no arguments. -/
structure Covers (K : Kinding) (g : Grammar) : Prop where
  rule {name : String} {o : Grammar} {r : Rule} : g.resolve? name = some (o, r) →
    (r.body.check K g (K.names r.name) (K.yields r.name) r.params).isSome = true
  spaces {o : Grammar} {r : Rule} : g.resolve? "spaces" = some (o, r) → r.params = []

/-- Where rules of a grammar run on a text, with rules applied in keeping with the kinds. -/
structure Setting (K : Kinding) (g : Grammar) (limit : Nat) (chars : Array Char)
    (apply : Applier φ) (ctx : Context) : Prop where
  text : ctx.frame.input = .text chars
  dispatch : ctx.dispatch = g
  calls : K.Calls g limit ctx.frame apply

variable {g : Grammar} {limit : Nat} {apply : Applier φ}

theorem token_meets (C : K.Covers g) (H : K.Calls g limit f apply) (h : K.Table s.memo)
    {text : String} :
    Meets (Cut limit) (K.Answers .text) (applyToken apply f g (.string text) s) := by
  have hspaces : Meets (Cut limit) (fun r => K.Table r.2.memo) (applySpaces apply f g s) := by
    unfold applySpaces
    split
    next o r hr =>
      have hp := C.spaces hr
      have hcount : (Target.rule o r).checkCount [] = .ok () := by
        simp [Target.checkCount, Target.arity, Arity.accepts, hp]
      rw [hcount]
      exact (H "spaces" o r [] s hr (by rw [hp]; exact .nil) h).mono fun _ ha => ha.table
    next => exact h
  unfold applyToken
  refine hspaces.bind fun r hr => ?_
  obtain ⟨v, t⟩ := r
  cases v with
  | none => exact Answers.failure hr
  | some v =>
    have hl : Meets (Cut limit) (K.Answers .text) (f.sequel (.string text) t) := literal_answers hr
    refine hl.bind fun r' hr' => ?_
    obtain ⟨w, u⟩ := r'
    cases w with
    | none => exact Answers.failure hr'.table
    | some w => exact hr'

/-- What a name means to a grammar that resolves it. -/
theorem resolve?_of_target? {name : String} {o : Grammar} {r : Rule}
    (h : g.target? name = some (.rule o r)) : g.resolve? name = some (o, r) := by
  unfold Grammar.target? at h
  split at h
  next hr => cases h; exact hr
  next =>
    obtain ⟨b, -, hb⟩ := Option.map_eq_some_iff.1 h
    cases hb

/-- **A name that may be applied** is applied to values, and gives one of the kind. -/
theorem checkApply_sound (C : K.Covers g) (H : K.Calls g limit f apply) {name : String}
    {args : List Action} (hc : Expr.checkApply K g vars name args k bound = true)
    (h : K.Ready vars bound scope s) :
    ∃ vs, Action.evalAll .standard scope args = .ok vs ∧
      Meets (Cut limit) (K.Answers k) (applyName apply f g name vs s) := by
  unfold Expr.checkApply at hc
  unfold applyName
  split at hc
  next o r ht =>
    simp only [Bool.and_eq_true] at hc
    obtain ⟨vs, hvs, hs⟩ := Action.checksAll_sound h.kinded h.bound args hc.1
    rw [List.forall₂_map_left_iff] at hs
    have hcount : (Target.rule o r).checkCount vs = .ok () := by
      simp [Target.checkCount, Target.arity, Arity.accepts, hs.length_eq]
    refine ⟨vs, hvs, ?_⟩
    rw [ht]
    show Meets _ _ (applyTarget apply f g (.rule o r) vs s)
    unfold applyTarget
    rw [hcount]
    -- the arguments are of the kinds of the parameters, so the rule may rely on them
    exact (H name o r vs s (resolve?_of_target? ht) hs h.table).mono fun _ ha => ha.of_fits hc.2
  next ht =>
    simp only [Bool.and_eq_true] at hc
    obtain ⟨vs, hvs, hs⟩ := Action.checksAll_sound h.kinded h.bound args hc.1
    -- a token must be a string: any other value would end the match of a text
    obtain _ | ⟨⟨text, rfl⟩, _ | _⟩ := hs
    refine ⟨_, hvs, ?_⟩
    rw [ht]
    exact (token_meets C H h.table).mono fun _ ha => ha.of_fits hc.2
  case h_3 ht | h_4 ht | h_5 ht =>
    simp only [Bool.and_eq_true, List.isEmpty_iff] at hc
    obtain ⟨rfl, hk⟩ := hc
    refine ⟨[], rfl, ?_⟩
    rw [ht]
    exact (charIf_answers h.table).of_fits hk
  next ht =>
    simp only [Bool.and_eq_true, List.isEmpty_iff] at hc
    obtain ⟨rfl, hk⟩ := hc
    refine ⟨[], rfl, ?_⟩
    rw [ht]
    show Meets _ _ (.ok (if f.input.size ≤ s.pos then s.accept s.pos .nil
      else s.reject f "end of input"))
    split
    · exact (Answers.accept (k := .anything) h.table trivial).of_fits hk
    · exact .reject h.table
  next => cases hc

/-! ### Expressions -/

omit [Account φ] in
/-- **The rounds of a repetition** give values of the kind of its body. -/
theorem repeatRounds_meets {body : Run φ} {min : Nat} {max : Option Nat} {fuel : Nat}
    {taken : Array Value}
    (hb : ∀ scope s, K.Ready vars bound scope s →
      Meets (Cut limit) (K.Replies vars k bound' scope) (body scope s))
    (h : K.Ready vars bound scope s) (ht : ∀ v ∈ taken.toList, k.Holds v) :
    Meets (Cut limit)
      (fun r => K.Table r.2.2.memo ∧ r.2.1.Kinded vars ∧
        (∀ x, scope.Binds x → r.2.1.Binds x) ∧ ∀ v ∈ r.1.toList, k.Holds v)
      (repeatRounds body min max fuel taken scope s) := by
  induction fuel generalizing taken scope s with
  | zero =>
    unfold repeatRounds
    split
    · exact ⟨h.table, h.kinded, fun _ hx => hx, ht⟩
    · exact .inr rfl
  | succ fuel ih =>
    unfold repeatRounds
    split
    · exact ⟨h.table, h.kinded, fun _ hx => hx, ht⟩
    refine (hb scope s h).bind fun r hr => ?_
    obtain ⟨v, scope', t⟩ := r
    cases v with
    | none => exact ⟨hr.table, hr.kinded, hr.kept, ht⟩
    | some v =>
      have hv : k.Holds v := (hr.value v rfl).1
      have ht' : ∀ w ∈ (taken.push v).toList, k.Holds w := by
        intro w hw
        rw [Array.toList_push, List.mem_append, List.mem_singleton] at hw
        rcases hw with hw | rfl
        · exact ht w hw
        · exact hv
      dsimp only
      split
      · -- the value of the last round counts for all that are missing
        refine ⟨hr.table, hr.kinded, hr.kept, fun w hw => ?_⟩
        rw [Array.toList_append, List.mem_append, Array.toList_replicate, List.mem_replicate] at hw
        rcases hw with hw | ⟨-, rfl⟩
        · exact ht' w hw
        · exact hv
      · refine (ih (hr.ready h) ht').mono fun r' hr' => ?_
        exact ⟨hr'.1, hr'.2.1, fun x hx => hr'.2.2.1 x (hr.kept x hx), hr'.2.2.2⟩

omit [Account φ] in
/-- A repetition whose value nobody looks at, or whose value is a list. -/
theorem evalRepeat_meets {body : Run φ} {min size : Nat} {max : Option Nat} {each : Kind}
    (hb : ∀ scope s, K.Ready vars bound scope s →
      Meets (Cut limit) (K.Replies vars each bound' scope) (body scope s))
    (hk : Expr.roundKind? max k = some each) (h : K.Ready vars bound scope s) :
    Meets (Cut limit) (K.Replies vars k bound scope) (evalRepeat body min max size scope s) := by
  unfold evalRepeat
  refine (repeatRounds_meets hb h (by simp)).bind fun r hr => ?_
  obtain ⟨taken, scope', t⟩ := r
  obtain ⟨htable, hkinded, hkept, htaken⟩ := hr
  have hvalue : k.Holds (repeatValue max taken) := by
    unfold Expr.roundKind? at hk
    split at hk
    next => trivial
    next =>
      obtain ⟨rfl, rfl⟩ : max = none ∧ _ = each := by simpa using hk
      exact ⟨taken.toList, rfl, htaken⟩
    next => cases hk
  dsimp only at htable hkinded hkept ⊢
  split
  · exact ⟨htable, hkinded, hkept, fun v hv => by cases hv⟩
  · refine ⟨htable, hkinded, hkept, fun v hv => ?_⟩
    cases hv
    exact ⟨hvalue, fun x hx => hkept x (h.bound x hx)⟩

end Kinding

open Kinding

namespace Expr

variable {φ : Type} [Account φ] {K : Kinding} {g : Grammar} {vars : String → Kind} {limit : Nat}
  {apply : Applier φ} {chars : Array Char}

/-- What is captured is of the kind that it is known to be of. -/
theorem checkCapture_sound {body : Expr} {k : Kind} (hc : checkCapture g body k = true)
    {registry : Registry} {ctx : Context} {scope : Scope} {s : State φ} {r : Reply φ} {v : Value}
    (hi : ctx.frame.input = .text chars) (hd : ctx.dispatch = g)
    (hr : body.eval apply registry ctx scope s = .ok r) (hv : r.value = some v) :
    k.Holds (ctx.frame.input.slice s.pos r.state.pos) := by
  unfold checkCapture at hc
  split at hc
  next hdigit =>
    simp only [decide_eq_true_eq] at hc
    subst hc
    have htook := (Notation.numeral_takes hdigit ctx scope s hi hd).result hr
    simp only [Reply.Took, hv] at htook
    obtain ⟨word, hword, hstands, hpos⟩ := htook
    rw [hi, hpos, hstands.slice]
    exact ⟨_, rfl, by rwa [String.toList_ofList]⟩
  next =>
    have htext : Kind.text.Holds (ctx.frame.input.slice s.pos r.state.pos) := by
      rw [hi]
      exact ⟨_, rfl⟩
    exact htext.of_fits hc

mutual

/-- **An expression that is known to give values of a kind does so**, and none of its actions
fails. -/
theorem check_sound (C : K.Covers g) : ∀ (e : Expr) (ctx : Context) {k : Kind}
    {bound bound' : List String} {scope : Scope} {s : State φ},
    e.check K g vars k bound = some bound' → K.Setting g limit chars apply ctx →
      K.Ready vars bound scope s →
        Meets (Cut limit) (K.Replies vars k bound' scope) (e.eval apply .standard ctx scope s)
  | any, ctx, k, bound, bound', scope, s, hc, S, h => by
    simp only [check, Option.ite_none_right_eq_some, Option.some.injEq] at hc
    obtain ⟨hk, rfl⟩ := hc
    exact .of_answer ((any_answers S.text h.table).of_fits hk) h
  | literal text, ctx, k, bound, bound', scope, s, hc, S, h => by
    simp only [check, Option.ite_none_right_eq_some, Option.some.injEq] at hc
    obtain ⟨hk, rfl⟩ := hc
    exact .of_answer ((literal_answers h.table).of_fits hk) h
  | sequence items, ctx, k, bound, bound', scope, s, hc, S, h => by
    rw [eval]
    refine (checkSequence_sound C items { ctx with sequenceStart := some s.pos } hc
      ⟨S.text, S.dispatch, S.calls⟩ h).bind fun r hr => ?_
    obtain ⟨v, scope', t⟩ := r
    cases v with
    -- a failure goes back to the start, but what it has bound stays bound
    | none => exact ⟨hr.table, hr.kinded, hr.kept, hr.value⟩
    | some v => exact hr
  | choice alternatives, ctx, k, bound, bound', scope, s, hc, S, h => by
    simp only [check, Option.ite_none_right_eq_some, Option.some.injEq] at hc
    obtain ⟨hc, rfl⟩ := hc
    rw [eval]
    exact checkChoice_sound C alternatives ctx hc S h
  | repeated body min max, ctx, k, bound, bound', scope, s, hc, S, h => by
    simp only [check] at hc
    split at hc
    next each heach =>
      obtain ⟨inner, hb, rfl⟩ := Option.map_eq_some_iff.1 hc
      rw [eval]
      exact evalRepeat_meets (fun scope s h => check_sound C body ctx hb S h) heach h
    next => cases hc
  | lookahead negated body, ctx, k, bound, bound', scope, s, hc, S, h => by
    simp only [check, Option.ite_none_right_eq_some, Bool.and_eq_true, Option.map_eq_some_iff] at hc
    obtain ⟨⟨rfl, hk⟩, inner, hc, rfl⟩ := hc
    have hready : K.Ready vars bound scope { s with account := Account.empty } :=
      ⟨h.table, h.kinded, h.bound⟩
    rw [eval]
    refine (check_sound C body ctx hc S hready).bind fun r hr => ?_
    refine ⟨hr.table, hr.kinded, hr.kept, fun v hv => ⟨?_, (hr.ready h).bound⟩⟩
    exact Kind.Holds.of_fits (k := .anything) trivial hk
  | .apply name args, ctx, k, bound, bound', scope, s, hc, S, h => by
    simp only [check, Option.ite_none_right_eq_some, Option.some.injEq] at hc
    obtain ⟨hc, rfl⟩ := hc
    obtain ⟨vs, hvs, hv⟩ := checkApply_sound C S.calls hc h
    rw [eval, hvs, S.dispatch]
    exact hv.bind fun a ha => .of_answer ha h
  | .bind name body, ctx, k, bound, bound', scope, s, hc, S, h => by
    simp only [check, Option.ite_none_right_eq_some, Option.map_eq_some_iff] at hc
    obtain ⟨hk, inner, hc, rfl⟩ := hc
    rw [eval]
    refine (check_sound C body ctx hc S h).bind fun r hr => ?_
    obtain ⟨v, scope', t⟩ := r
    cases v with
    | none => exact hr.failed rfl
    | some v =>
      -- a name is of one kind wherever the rule binds it, so it may well have been bound before
      obtain ⟨hv, hb⟩ := hr.value v rfl
      refine ⟨hr.table, hr.kinded.insert hv, fun x hx => .insert (.inr (hr.kept x hx)), ?_⟩
      rintro w hw
      cases hw
      refine ⟨hv.of_fits hk, fun x hx => .insert ?_⟩
      exact (List.mem_cons.1 hx).imp_right (hb x)
  | action a, ctx, k, bound, bound', scope, s, hc, S, h => by
    simp only [check, Option.ite_none_right_eq_some, Option.some.injEq] at hc
    obtain ⟨hc, rfl⟩ := hc
    obtain ⟨v, hv, hk⟩ := Action.checks_sound h.kinded h.bound a hc
    rw [eval, hv]
    exact .of_value h hk
  | capture body, ctx, k, bound, bound', scope, s, hc, S, h => by
    simp only [check, Option.ite_none_right_eq_some] at hc
    obtain ⟨hcapture, hc⟩ := hc
    have hbody := check_sound C body ctx hc S h
    rw [eval]
    cases hr : body.eval apply .standard ctx scope s with
    | error halt => exact hbody.error hr
    | ok r =>
      -- the value of the body is dropped for the text that it took
      have hreply := hbody.result hr
      refine ⟨hreply.table, hreply.kinded, hreply.kept, fun v hv => ?_⟩
      obtain ⟨w, hw, rfl⟩ := Option.map_eq_some_iff.1 hv
      exact ⟨checkCapture_sound hcapture S.text S.dispatch hr hw, (hreply.value w hw).2⟩
  | terminal _, _, _, _, _, _, _, hc, _, _ | range _ _, _, _, _, _, _, _, hc, _, _
  | super _ _, _, _, _, _, _, _, hc, _, _ | foreign _ _ _, _, _, _, _, _, _, hc, _, _
  | guard _, _, _, _, _, _, _, hc, _, _ | nested _, _, _, _, _, _, _, hc, _, _ => by
    cases hc

theorem checkSequence_sound (C : K.Covers g) : ∀ (es : List Expr) (ctx : Context) {k : Kind}
    {bound bound' : List String} {last : Value} {scope : Scope} {s : State φ},
    checkSequence K g vars es k bound = some bound' → K.Setting g limit chars apply ctx →
      K.Ready vars bound scope s →
        Meets (Cut limit) (K.Replies vars k bound' scope)
          (evalSequence apply .standard es ctx last scope s)
  | [], _, _, _, _, _, _, _, hc, _, _ => by cases hc
  | [e], ctx, k, bound, bound', last, scope, s, hc, S, h => by
    rw [evalSequence]
    refine (check_sound C e ctx hc S h).bind fun r hr => ?_
    obtain ⟨v, scope', t⟩ := r
    cases v with
    | none => exact hr
    | some v => exact hr
  | e :: e' :: es, ctx, k, bound, bound', last, scope, s, hc, S, h => by
    simp only [checkSequence] at hc
    split at hc
    next inner he =>
      rw [evalSequence]
      refine (check_sound C e ctx he S h).bind fun r hr => ?_
      obtain ⟨v, scope', t⟩ := r
      cases v with
      | none => exact hr.failed rfl
      | some v =>
        have hready : K.Ready vars inner scope' t := ⟨hr.table, hr.kinded, (hr.value v rfl).2⟩
        refine (checkSequence_sound C (e' :: es) ctx hc S hready).mono fun r' hr' => ?_
        exact hr.after hr'
    next => cases hc

theorem checkChoice_sound (C : K.Covers g) : ∀ (es : List Expr) (ctx : Context) {k : Kind}
    {bound : List String} {scope : Scope} {s : State φ},
    checkChoice K g vars es k bound = true → K.Setting g limit chars apply ctx →
      K.Ready vars bound scope s →
        Meets (Cut limit) (K.Replies vars k bound scope)
          (evalChoice apply .standard es ctx scope s)
  | [], ctx, k, bound, scope, s, hc, S, h => by
    rw [evalChoice]
    exact ⟨h.table, h.kinded, fun _ hx => hx, fun v hv => by cases hv⟩
  | e :: es, ctx, k, bound, scope, s, hc, S, h => by
    simp only [checkChoice, Bool.and_eq_true, Option.isSome_iff_exists] at hc
    obtain ⟨⟨inner, he⟩, hc⟩ := hc
    rw [evalChoice]
    refine (check_sound C e ctx he S h).bind fun r hr => ?_
    obtain ⟨v, scope', t⟩ := r
    cases v with
    | some v =>
      -- the names of the alternative are not bound for sure, but the earlier ones still are
      exact ⟨hr.table, hr.kinded, hr.kept, fun w hw =>
        ⟨(hr.value w hw).1, (hr.ready h).bound⟩⟩
    | none =>
      have hready : K.Ready vars bound scope' (t.moveTo s.pos) :=
        ⟨hr.table, hr.kinded, (hr.ready h).bound⟩
      exact (checkChoice_sound C es ctx hc S hready).mono fun r' hr' => hr.after hr'

end

end Expr

/-! ### Applications through the table -/

namespace Kinding

variable {φ : Type} [Account φ] {K : Kinding} {k : Kind} {g : Grammar} {limit : Nat} {f : Frame}
  {chars : Array Char}

section Table

variable {body : Attempt φ} {spot : Spot} {mark : Nat} {s : State φ}
  (hb : ∀ s, K.Table s.memo → Meets (Cut limit) (K.Answers (K.yields spot.2.rule)) (body s))

include hb

/-- **Growth** puts values of the kind of the rule into the table, and comes to one. -/
theorem grow_meets (fuel : Nat) (seed : Value) (stop : Nat) (s : State φ) (h : K.Table s.memo)
    (hseed : (K.yields spot.2.rule).Holds seed) :
    Meets (Cut limit) (fun r => K.Table r.2.memo ∧ (K.yields spot.2.rule).Holds r.1)
      (grow body spot mark fuel seed stop s) := by
  induction fuel generalizing seed stop s with
  | zero => exact .inr rfl
  | succ fuel ih =>
    rw [grow_succ]
    have hseeded : K.Table (s.seeded spot mark seed stop).memo :=
      (h.set_done fun w hw => by cases hw; exact hseed).forgetAfter
    refine (hb _ hseeded).bind fun r hr => ?_
    obtain ⟨v, t⟩ := r
    have hgrown : K.Table (t.grown stop mark).memo := hr.table.forgetAfter
    cases v with
    | none => exact ⟨hgrown, hseed⟩
    | some v =>
      dsimp only
      split
      · exact ih v t.pos t hr.table (hr.value v rfl)
      · exact ⟨hgrown, hseed⟩

theorem ripened_meets (h : K.Table s.memo) :
    Meets (Cut limit) (K.Answers (K.yields spot.2.rule)) (ripened body f spot mark s) := by
  unfold ripened
  refine (hb s h).bind fun r hr => ?_
  obtain ⟨v, t⟩ := r
  cases v with
  | none => exact hr
  | some seed =>
    dsimp only
    split
    · refine (grow_meets hb _ seed t.pos t hr.table (hr.value seed rfl)).bind fun r' hr' => ?_
      exact ⟨hr'.1, fun w hw => by cases hw; exact hr'.2⟩
    · exact hr

end Table

/-- **An application through the table** keeps to the kinds, if its body does. -/
theorem memoized_meets {keep : Bool} {call : Call} {body : Attempt φ} {s : State φ}
    (hb : ∀ s, K.Table s.memo → Meets (Cut limit) (K.Answers (K.yields call.rule)) (body s))
    (h : K.Table s.memo) :
    Meets (Cut limit) (K.Answers (K.yields call.rule)) (memoized keep f call body s) := by
  cases hg : s.memo.get? (s.pos, call) with
  | some entry =>
    cases entry with
    | active met =>
      rw [memoized_of_active hg]
      exact Answers.failure (s := { s with memo := _ }) h.set_active
    | done v stop a =>
      rw [memoized_of_done hg]
      exact ⟨h, h _ _ _ _ hg⟩
  | none =>
    rw [memoized_of_none hg]
    have hentered : K.Table (s.entered call).memo := h.begin
    have hripened : Meets (Cut limit) (K.Answers (K.yields call.rule))
        (ripened body f (s.pos, call) s.memo.mark (s.entered call)) := ripened_meets hb hentered
    refine hripened.bind fun r hr => ?_
    refine ⟨?_, hr.value⟩
    show K.Table (if keep then _ else _)
    split
    · exact hr.table.set_done hr.value
    · exact hr.table.erase

/-- **At any depth**, the rules of a grammar that keeps to a kinding are applied in keeping with
it. -/
theorem Covers.calls (C : K.Covers g) (hf : f.input = .text chars) (keep : Bool) (depth : Nat) :
    K.Calls g limit f (applyDepth (φ := φ) (memoized keep) .standard limit depth) := by
  induction depth with
  | zero => exact fun _ _ _ _ _ _ _ _ => .inl rfl
  | succ depth ih =>
    -- the body of the rule was checked on its own, and the rules in it run one level further down
    intro name o r args s hr hargs h
    refine memoized_meets (fun s h => ?_) h
    obtain ⟨bound, hc⟩ := Option.isSome_iff_exists.1 (C.rule hr)
    obtain ⟨hkinded, hbinds⟩ := Scope.ofParams_kinded hargs
    have hready : K.Ready (K.names r.name) r.params (.ofParams r.params args) s :=
      ⟨h, hkinded, hbinds⟩
    refine (Expr.check_sound C r.body { frame := f, dispatch := g, owner := o } hc ⟨hf, rfl, ih⟩
      hready).bind fun reply hreply => ?_
    exact ⟨hreply.table, fun v hv => (hreply.value v hv).1⟩

/-- **What the engine gives of a text** by a rule of a grammar that keeps to a kinding is of the kind
of the rule. It fails only if the text does not match, or at the limit on nesting. -/
theorem Covers.matchAll (C : K.Covers g) {rule : String} {o : Grammar}
    (hr : ∃ r, g.resolve? rule = some (o, r) ∧ r.params = [] ∧ K.yields r.name = k)
    (options : Options) (chars : Array Char) :
    Meets (fun c => (∃ failure, c = .parse failure) ∨ c = .recursionLimit options.maxDepth) k.Holds
      (({ options } : Engine).matchAll g rule (.text chars)) := by
  obtain ⟨r, hr, hp, rfl⟩ := hr
  have htarget : g.target? rule = some (.rule o r) := by
    unfold Grammar.target?
    rw [hr]
  have hcount : (Target.rule o r).checkCount [] = .ok () := by
    simp [Target.checkCount, Target.arity, Arity.accepts, hp]
  have hstart : Meets (Cut options.maxDepth) (K.Answers (K.yields r.name))
      (({ options } : Engine).start (φ := Furthest) g rule (.text chars) []) := by
    unfold Engine.start applyName
    rw [htarget]
    show Meets _ _ (applyTarget _ _ g (.rule o r) [] _)
    unfold applyTarget
    rw [hcount]
    exact C.calls rfl options.memoize options.maxDepth rule o r [] _ hr (by rw [hp]; exact .nil)
      .empty
  have hrun : Meets (· = .recursionLimit options.maxDepth)
      (fun outcome => ∀ w cursor, outcome = .success w cursor → (K.yields r.name).Holds w)
      ((({ options } : Engine).run g rule (.text chars) [] true).mapError
        ({ options } : Engine).causeOfHalt) := by
    rw [Engine.run_eq]
    cases hs : ({ options } : Engine).start (φ := Furthest) g rule (.text chars) [] with
    | error h =>
      rcases hstart.error hs with rfl | rfl
      · rfl
      · rfl
    | ok answer =>
      intro w cursor hw
      unfold Engine.conclude at hw
      split at hw
      next v hv =>
        split at hw
        · cases hw
        · cases hw
          exact (hstart.result hs).value w hv
      next => cases hw
  unfold Engine.matchAll
  refine (hrun.weaken fun c hc => .inr hc).bind fun outcome ho => ?_
  cases outcome with
  | success w cursor => exact ho w cursor rfl
  | failure failure => exact .inl ⟨failure, rfl⟩

end Kinding

end Packrat
