import Packrat.Proofs.Keyed
import Packrat.Proofs.Rendering

/-!
# Matches that do not tell NaNs apart

If the functions that actions call are blind to the bits of NaNs, then so is a match. The values that
it comes to may differ in such bits from those of a keyed match, and in nothing else. So what holds
of keyed matches holds of all matches, up to the bits of NaNs.

* `Answer.Alike`, `Reply.Alike`: what comes to the same up to the bits of NaNs.
* `Expr.eval_alike`: an expression is evaluated alike if rules are applied alike.
* `applyDepth_alike`: rules are applied as by a keyed match, at any depth.
* `memoized_alike`, `memoized_keyed`: so they are through the table.
* `Engine.run_keyed`: a whole run is a keyed one.
-/

namespace Packrat

open Value (Alike AlikeAll)

variable {φ ψ : Type} [Account φ] [Account ψ]

/-! ### States and answers -/

section Relations

variable (R : Rendering φ ψ)

/-- Entries that say the same up to the bits of NaNs, with accounts that correspond. -/
inductive Entry.Alike : Entry φ → Entry ψ → Prop
  | active (met : Bool) : Alike (.active met) (.active met)
  | done {v w : Option Value} (stop : Nat) {a : φ} {a' : ψ} (hv : Option.Rel Value.Alike v w)
    (ha : R.accounts a a') : Alike (.done v stop a) (.done w stop a')

/-- **States that differ in the bits of NaNs only**, and in their accounts, which correspond. -/
structure State.Alike (s : State φ) (t : State ψ) : Prop where
  pos : s.pos = t.pos
  tables : s.memo.Matches (Entry.Alike R) t.memo
  accounts : R.accounts s.account t.account

/-- Answers with values and states that are alike. -/
structure Answer.Alike (a : Answer φ) (b : Answer ψ) : Prop where
  value : Option.Rel Value.Alike a.1 b.1
  state : a.2.Alike R b.2

/-- Replies with values, scopes and states that are alike. -/
structure Reply.Alike (a : Reply φ) (b : Reply ψ) : Prop where
  value : Option.Rel Value.Alike a.value b.value
  scope : a.scope.Alike b.scope
  state : a.state.Alike R b.state

/-- Bodies of rules that come to the same up to the bits of NaNs. -/
def Attempt.Alike (exempt : Halt → Prop) (one : Attempt φ) (two : Attempt ψ) : Prop :=
  ∀ (s : State φ) (t : State ψ), s.Alike R t →
    TracksExcept exempt (Answer.Alike R) (one s) (two t)

/-- Likewise for what expressions do. -/
def Run.Alike (exempt : Halt → Prop) (one : Run φ) (two : Run ψ) : Prop :=
  ∀ (scope scope' : Scope) (s : State φ) (t : State ψ), scope.Alike scope' → s.Alike R t →
    TracksExcept exempt (Reply.Alike R) (one scope s) (two scope' t)

/-- **Two ways of applying rules that come to the same** up to the bits of NaNs. -/
def Applier.Alike (exempt : Halt → Prop) (one : Applier φ) (two : Applier ψ) : Prop :=
  ∀ (f : Frame) (d o : Grammar) (r : Rule) (args args' : List Value) (s : State φ) (t : State ψ),
    AlikeAll args args' → s.Alike R t →
      TracksExcept exempt (Answer.Alike R) (one f d o r args s) (two f d o r args' t)

end Relations

variable {R : Rendering φ ψ} {exempt : Halt → Prop} {f : Frame} {s : State φ} {t : State ψ}

theorem Tracks.except {α β : Type} {Q : α → β → Prop} {m : Except Cause α} {n : Except Cause β}
    (h : Tracks False Q m n) : TracksExcept exempt Q (Halt.ofAction m) (Halt.ofAction n) := by
  cases m with
  | error c =>
    rw [h.resolve_left id]
    exact .inr rfl
  | ok a =>
    obtain ⟨b, rfl, hab⟩ := h
    exact ⟨b, rfl, hab⟩

namespace State.Alike

theorem start {a : φ} {b : ψ} (h : R.accounts a b) : (State.start a).Alike R (State.start b) :=
  ⟨rfl, .empty, h⟩

theorem moveTo (h : s.Alike R t) (p : Nat) : (s.moveTo p).Alike R (t.moveTo p) :=
  ⟨rfl, h.tables, h.accounts⟩

theorem missed (h : s.Alike R t) {a : φ} {b : ψ} (hab : R.accounts a b) :
    (s.missed a).Alike R (t.missed b) :=
  ⟨h.pos, h.tables, R.append h.accounts hab⟩

theorem expect (h : s.Alike R t) (p : Nat) (label : String) :
    (s.expect f p label).Alike R (t.expect f p label) :=
  h.missed R.miss

theorem withAccount (h : s.Alike R t) {a : φ} {b : ψ} (hab : R.accounts a b) :
    State.Alike R { s with account := a } { t with account := b } :=
  ⟨h.pos, h.tables, hab⟩

theorem accept (h : s.Alike R t) (p : Nat) {v w : Value} (hv : v.Alike w) :
    Answer.Alike R (s.accept p v) (t.accept p w) :=
  ⟨.some hv, h.moveTo p⟩

theorem reject (h : s.Alike R t) (label : String) :
    Answer.Alike R (s.reject f label) (t.reject f label) := by
  unfold State.reject
  rw [h.pos]
  exact ⟨.none, h.expect _ _⟩

/-! ### Single elements -/

theorem any (h : s.Alike R t) : Answer.Alike R (f.any s) (f.any t) := by
  unfold Frame.any
  rw [h.pos]
  split
  · exact h.accept _ rfl
  · exact h.reject _

theorem literal (h : s.Alike R t) (text : String) :
    Answer.Alike R (f.literal text s) (f.literal text t) := by
  unfold Frame.literal
  rw [h.pos]
  split
  · exact h.accept _ rfl
  · exact h.reject _

theorem charIf (h : s.Alike R t) (test : Char → Bool) (label : String) :
    Answer.Alike R (f.charIf test label s) (f.charIf test label t) := by
  unfold Frame.charIf
  rw [h.pos]
  split
  · split
    · exact h.accept _ rfl
    · exact h.reject _
  · exact h.reject _

theorem itemIf (h : s.Alike R t) (test : Value → Bool) (label : String) :
    Answer.Alike R (f.itemIf test label s) (f.itemIf test label t) := by
  unfold Frame.itemIf
  rw [h.pos]
  split
  · exact h.reject _
  · split
    · split
      · exact h.accept _ rfl
      · exact h.reject _
    · exact h.reject _

end State.Alike

/-- An element that equals a value equals those that are alike. -/
theorem Frame.hasExactly_alike {v w : Value} (h : v.Alike w) (p : Nat) :
    f.hasExactly p v = f.hasExactly p w := by
  have hequals (u : Value) : u.equals v = u.equals w := by
    rw [← Value.equals_signature u v, ← Value.equals_signature u w,
      show v.signature = w.signature from h]
  unfold Frame.hasExactly
  split
  · rw [h.congr Value.char?_signature]
  · simp only [hequals]

theorem State.Alike.exactly (h : s.Alike R t) {v w : Value} (hv : v.Alike w) :
    Answer.Alike R (f.exactly v s) (f.exactly w t) := by
  unfold Frame.exactly
  rw [h.pos, Frame.hasExactly_alike hv, hv.congr Value.describe_signature]
  split
  · exact h.accept _ hv
  · exact h.reject _

/-! ### Names -/

section Names

variable {one : Applier φ} {two : Applier ψ} {d : Grammar}

theorem Target.checkCount_alike {target : Target} {args args' : List Value}
    (h : AlikeAll args args') : target.checkCount args = target.checkCount args' := by
  unfold Target.checkCount
  rw [h.length]

theorem applySpaces_alike (H : Applier.Alike R exempt one two) (h : s.Alike R t) :
    TracksExcept exempt (Answer.Alike R) (applySpaces one f d s) (applySpaces two f d t) := by
  unfold applySpaces
  cases d.resolve? "spaces" with
  | none =>
    rw [h.pos]
    exact ⟨_, rfl, h.accept _ rfl⟩
  | some or =>
    dsimp only
    cases (Target.rule or.1 or.2).checkCount [] with
    | error e => exact .inr rfl
    | ok u => exact H f d or.1 or.2 [] [] s t rfl h

/-- A sequel asks whether it is a string, what type it has, and which value it is. -/
theorem Frame.sequel_eq (v : Value) (s : State φ) :
    f.sequel v s =
      match v.string? with
      | some text => .ok (f.literal text s)
      | none =>
        if f.input.isText then .error (.fatal (.typeMismatch "String" v.typeName))
        else .ok (f.exactly v s) := by
  cases v <;> rfl

theorem sequel_alike {v w : Value} (hv : v.Alike w) (h : s.Alike R t) :
    TracksExcept exempt (Answer.Alike R) (f.sequel v s) (f.sequel w t) := by
  rw [Frame.sequel_eq, Frame.sequel_eq, hv.congr Value.string?_signature,
    hv.congr Value.typeName_signature]
  cases w.string? with
  | some text => exact ⟨_, rfl, h.literal text⟩
  | none =>
    dsimp only
    split
    · exact .inr rfl
    · exact ⟨_, rfl, h.exactly hv⟩

theorem applyToken_alike (H : Applier.Alike R exempt one two) {v w : Value} (hv : v.Alike w)
    (h : s.Alike R t) :
    TracksExcept exempt (Answer.Alike R) (applyToken one f d v s) (applyToken two f d w t) := by
  unfold applyToken
  refine (applySpaces_alike H h).bind ?_
  rintro ⟨a, s'⟩ ⟨b, t'⟩ ⟨hab, h'⟩
  cases hab with
  | none => exact ⟨_, rfl, .none, h'⟩
  | some _ =>
    refine (sequel_alike hv h').bind ?_
    rintro ⟨a, s''⟩ ⟨b, t''⟩ ⟨hab, h''⟩
    cases hab with
    | none =>
      rw [h.pos]
      exact ⟨_, rfl, .none, h''.moveTo _⟩
    | some hab => exact ⟨_, rfl, .some hab, h''⟩

theorem applyBuiltin_alike (H : Applier.Alike R exempt one two) (b : Builtin)
    {args args' : List Value} (ha : AlikeAll args args') (h : s.Alike R t) :
    TracksExcept exempt (Answer.Alike R) (applyBuiltin one f d b args s)
      (applyBuiltin two f d b args' t) := by
  have harg : (args.headD .nil).Alike (args'.headD .nil) := by
    cases args with
    | nil => cases args' <;> cases ha; rfl
    | cons v vs =>
      cases args' with
      | nil => cases ha
      | cons w ws => exact (List.cons.inj ha).1
  have hpos := h.pos
  cases b with
  | anything => exact ⟨_, rfl, h.any⟩
  | «end» =>
    simp only [applyBuiltin, hpos]
    split
    · exact ⟨_, rfl, h.accept _ rfl⟩
    · exact ⟨_, rfl, h.reject _⟩
  | empty | spaces | pos =>
    simp only [applyBuiltin, hpos]
    exact ⟨_, rfl, h.accept _ rfl⟩
  | space | digit | letter | char => exact ⟨_, rfl, h.charIf _ _⟩
  | string | number => exact ⟨_, rfl, h.itemIf _ _⟩
  | col =>
    simp only [applyBuiltin, hpos]
    split
    · exact ⟨_, rfl, h.accept _ rfl⟩
    · exact ⟨_, rfl, h.reject _⟩
  | seq => exact sequel_alike harg h
  | token => exact applyToken_alike H harg h
  | exactly => exact ⟨_, rfl, h.exactly harg⟩
  | apply =>
    simp only [applyBuiltin, harg.congr Value.describe_signature]
    exact ⟨_, rfl, h.reject _⟩

/-- A wrong number of arguments ends both runs. -/
theorem Target.checkCount_bind_alike {α β : Type} {Q : α → β → Prop} {target : Target}
    {args args' : List Value} (ha : AlikeAll args args') {j : Except Halt α} {k : Except Halt β}
    (h : TracksExcept exempt Q j k) :
    TracksExcept exempt Q (target.checkCount args >>= fun _ => j)
      (target.checkCount args' >>= fun _ => k) := by
  rw [target.checkCount_alike ha]
  cases target.checkCount args' with
  | error e => exact .inr rfl
  | ok u => exact h

/-- **What a name means is applied alike.** -/
theorem applyTarget_alike (H : Applier.Alike R exempt one two) {target : Target}
    {args args' : List Value} (ha : AlikeAll args args') (h : s.Alike R t) :
    TracksExcept exempt (Answer.Alike R) (applyTarget one f d target args s)
      (applyTarget two f d target args' t) := by
  -- `apply` takes the name of a rule off its arguments, and a name is no number
  induction args generalizing target args' with
  | nil =>
    cases args' with
    | cons w ws => cases ha
    | nil =>
      unfold applyTarget
      refine target.checkCount_bind_alike ha ?_
      cases target with
      | rule o r => exact H f d o r [] [] s t ha h
      | builtin b => cases b <;> exact applyBuiltin_alike H _ ha h
  | cons v vs ih =>
    cases args' with
    | nil => cases ha
    | cons w ws =>
      obtain ⟨hv, hvs⟩ := List.cons.inj ha
      unfold applyTarget
      refine target.checkCount_bind_alike ha ?_
      cases target with
      | rule o r => exact H f d o r _ _ s t ha h
      | builtin b =>
        have hother := applyBuiltin_alike (f := f) (d := d) H b ha h
        cases b with
        | apply =>
          cases v with
          | string name =>
            cases w <;> cases hv
            dsimp only
            cases d.target? name with
            | none => exact ⟨_, rfl, h.reject _⟩
            | some target => exact ih hvs
          | _ => cases w <;> first | exact hother | cases hv
        | _ => exact hother

end Names

/-! ### Expressions -/

section Runs

variable {one : Run φ} {two : Run ψ} {scope scope' : Scope}

/-- A reply that leaves the scope as it was. -/
theorem Reply.Alike.ofAnswer {a : Answer φ} {b : Answer ψ} (hs : scope.Alike scope')
    (h : a.Alike R b) : Reply.Alike R (.ofAnswer scope a) (.ofAnswer scope' b) :=
  ⟨h.value, hs, h.state⟩

/-- Rounds of a repetition take values that are alike. -/
structure Rounds.Alike (R : Rendering φ ψ) (a : Array Value × Scope × State φ)
    (b : Array Value × Scope × State ψ) : Prop where
  taken : AlikeAll a.1.toList b.1.toList
  scope : a.2.1.Alike b.2.1
  state : a.2.2.Alike R b.2.2

theorem Value.AlikeAll.append {vs ws vs' ws' : List Value} (h : AlikeAll vs ws)
    (h' : AlikeAll vs' ws') : AlikeAll (vs ++ vs') (ws ++ ws') := by
  rw [AlikeAll, signatures_append, signatures_append, show signatures vs = signatures ws from h,
    show signatures vs' = signatures ws' from h']

theorem Value.AlikeAll.replicate {v w : Value} (h : v.Alike w) :
    ∀ n : Nat, AlikeAll (List.replicate n v) (List.replicate n w)
  | 0 => rfl
  | n + 1 => .cons h (replicate h n)

theorem repeatRounds_alike (hb : Run.Alike R exempt one two) (min : Nat) (max : Option Nat)
    (fuel : Nat) {taken taken' : Array Value} {s : State φ} {t : State ψ}
    (ht : AlikeAll taken.toList taken'.toList) (hs : scope.Alike scope') (h : s.Alike R t) :
    TracksExcept exempt (Rounds.Alike R) (repeatRounds one min max fuel taken scope s)
      (repeatRounds two min max fuel taken' scope' t) := by
  induction fuel generalizing taken taken' scope scope' s t with
  | zero =>
    have hsize : taken.size = taken'.size := ht.length
    unfold repeatRounds
    rw [hsize]
    split
    · exact ⟨_, rfl, ht, hs, h⟩
    · exact .inr rfl
  | succ fuel ih =>
    have hsize : taken.size = taken'.size := ht.length
    unfold repeatRounds
    rw [hsize]
    split
    · exact ⟨_, rfl, ht, hs, h⟩
    refine (hb scope scope' s t hs h).bind fun a b hab => ?_
    obtain ⟨v, scope, s'⟩ := a
    obtain ⟨w, scope', t'⟩ := b
    obtain ⟨hv, hs', h'⟩ := hab
    cases hv with
    | none => exact ⟨_, rfl, ht, hs', h'⟩
    | @some v w hv =>
      have hpush : AlikeAll (taken.push v).toList (taken'.push w).toList := by
        rw [Array.toList_push, Array.toList_push]
        exact ht.append (.cons hv rfl)
      have hpos := h.pos
      have hpos' : s'.pos = t'.pos := h'.pos
      dsimp only
      rw [hpos, hpos']
      split
      · refine ⟨_, rfl, ?_, hs', h'⟩
        simp only [Array.toList_append, Array.toList_replicate, Array.size_push, hsize]
        exact hpush.append (.replicate hv _)
      · exact ih hpush hs' h'

theorem repeatValue_alike (max : Option Nat) {taken taken' : Array Value}
    (h : AlikeAll taken.toList taken'.toList) :
    (repeatValue max taken).Alike (repeatValue max taken') := by
  obtain ⟨vs⟩ := taken
  obtain ⟨ws⟩ := taken'
  unfold repeatValue
  split
  · cases vs with
    | nil => cases ws <;> cases h; rfl
    | cons v vs =>
      cases ws with
      | nil => cases h
      | cons w ws => exact (List.cons.inj h).1
  · exact congrArg Value.list h

theorem evalRepeat_alike (hb : Run.Alike R exempt one two) (min : Nat) (max : Option Nat)
    (size : Nat) :
    Run.Alike R exempt (evalRepeat one min max size) (evalRepeat two min max size) := by
  intro scope scope' s t hs h
  unfold evalRepeat
  rw [h.pos]
  refine (repeatRounds_alike hb min max _ rfl hs h).bind fun a b hab => ?_
  obtain ⟨taken, scope, s'⟩ := a
  obtain ⟨taken', scope', t'⟩ := b
  obtain ⟨ht, hs', h'⟩ := hab
  have hsize : taken.size = taken'.size := ht.length
  dsimp only
  rw [hsize]
  split
  · exact ⟨_, rfl, .none, hs', h'.moveTo _⟩
  · exact ⟨_, rfl, .some (repeatValue_alike max ht), hs', h'⟩

theorem evalLookahead_alike (hb : Run.Alike R exempt one two) (negated : Bool) :
    Run.Alike R exempt (evalLookahead one negated) (evalLookahead two negated) := by
  intro scope scope' s t hs h
  unfold evalLookahead
  cases negated with
  | false =>
    refine (hb scope scope' s t hs h).bind fun a b hab => ?_
    rw [h.pos]
    exact ⟨_, rfl, hab.value, hab.scope, hab.state.moveTo _⟩
  | true =>
    have hin : State.Alike R { s with account := Account.empty }
        { t with account := Account.empty } := h.withAccount R.empty
    refine (hb scope scope' _ _ hs hin).bind fun a b hab => ?_
    obtain ⟨v, scope, s'⟩ := a
    obtain ⟨w, scope', t'⟩ := b
    obtain ⟨hv, hs', h'⟩ := hab
    have haccount := R.append h.accounts (R.negation h'.accounts)
    refine ⟨_, rfl, ?_, hs', h.pos, h'.tables, haccount⟩
    cases hv with
    | none => exact .some rfl
    | some _ => exact .none

theorem evalNested_alike {one : Frame → Run φ} {two : Frame → Run ψ}
    (hb : ∀ inner, Run.Alike R exempt (one inner) (two inner)) (f : Frame) :
    Run.Alike R exempt (evalNested one f) (evalNested two f) := by
  intro scope scope' s t hs h
  unfold evalNested
  rw [h.pos]
  dsimp only
  cases f.enter? t.pos with
  | none => exact ⟨_, rfl, .ofAnswer hs (h.reject _)⟩
  | some inner =>
    dsimp only
    refine (hb inner scope scope' _ _ hs (.start h.accounts)).bind fun a b hab => ?_
    obtain ⟨v, scope, s'⟩ := a
    obtain ⟨w, scope', t'⟩ := b
    obtain ⟨hv, hs', h'⟩ := hab
    have hpos' : s'.pos = t'.pos := h'.pos
    cases hv with
    | none => exact ⟨_, rfl, .none, hs', rfl, h.tables, h'.accounts⟩
    | some hv =>
      dsimp only
      rw [hpos']
      split
      · exact ⟨_, rfl, .none, hs', rfl, h.tables, (h'.expect _ _).accounts⟩
      · exact ⟨_, rfl, .some hv, hs', rfl, h.tables, h'.accounts⟩

end Runs

namespace Expr

variable {one : Applier φ} {two : Applier ψ} {registry : Registry}

/-- Applications come to the same up to the bits of NaNs. -/
theorem application_alike (hb : registry.Blind) (H : Applier.Alike R exempt one two) {e : Expr}
    {ctx : Context} {args : List Action} {meaning : Except Cause (Grammar × Target)}
    (he : e.application? ctx.dispatch ctx.owner = some (args, meaning)) :
    Run.Alike R exempt (e.eval one registry ctx) (e.eval two registry ctx) := by
  intro scope scope' s t hs h
  rw [eval_application he, eval_application he]
  refine (Tracks.except (Action.evalAll_alike hb hs args)).bind fun vs ws hvs => ?_
  cases meaning with
  | error c => exact .inr rfl
  | ok gt => exact (applyTarget_alike H hvs h).bind fun a b hab => ⟨_, rfl, .ofAnswer hs hab⟩

mutual

/-- **An expression is evaluated alike**, if rules are applied alike. -/
theorem eval_alike (hb : registry.Blind) (H : Applier.Alike R exempt one two) :
    ∀ (e : Expr) (ctx : Context),
      Run.Alike R exempt (e.eval one registry ctx) (e.eval two registry ctx)
  | any, ctx, scope, scope', s, t, hs, h => by
    rw [eval, eval]
    exact ⟨_, rfl, .ofAnswer hs h.any⟩
  | terminal v, ctx, scope, scope', s, t, hs, h => by
    rw [eval, eval]
    exact ⟨_, rfl, .ofAnswer hs (h.exactly rfl)⟩
  | literal text, ctx, scope, scope', s, t, hs, h => by
    rw [eval, eval]
    exact ⟨_, rfl, .ofAnswer hs (h.literal text)⟩
  | range low high, ctx, scope, scope', s, t, hs, h => by
    rw [eval, eval]
    exact ⟨_, rfl, .ofAnswer hs (h.charIf _ _)⟩
  | sequence items, ctx, scope, scope', s, t, hs, h => by
    rw [eval, eval, h.pos]
    refine (evalSequence_alike hb H items _ rfl scope scope' s t hs h).bind fun a b hab => ?_
    obtain ⟨v, scope, s'⟩ := a
    obtain ⟨w, scope', t'⟩ := b
    obtain ⟨hv, hs', h'⟩ := hab
    cases hv with
    -- a failing sequence goes back to where it started
    | none => exact ⟨_, rfl, .none, hs', h'.moveTo _⟩
    | some hv => exact ⟨_, rfl, .some hv, hs', h'⟩
  | choice alternatives, ctx, scope, scope', s, t, hs, h => by
    rw [eval, eval]
    exact evalChoice_alike hb H alternatives ctx scope scope' s t hs h
  | repeated body min max, ctx, scope, scope', s, t, hs, h => by
    rw [eval, eval]
    exact evalRepeat_alike (eval_alike hb H body ctx) min max _ scope scope' s t hs h
  | lookahead negated body, ctx, scope, scope', s, t, hs, h => by
    rw [eval, eval]
    exact evalLookahead_alike (eval_alike hb H body ctx) negated scope scope' s t hs h
  | .apply rule args, ctx, scope, scope', s, t, hs, h =>
    application_alike hb H rfl scope scope' s t hs h
  | super rule args, ctx, scope, scope', s, t, hs, h =>
    application_alike hb H rfl scope scope' s t hs h
  | foreign grammar rule args, ctx, scope, scope', s, t, hs, h =>
    application_alike hb H rfl scope scope' s t hs h
  | bind name body, ctx, scope, scope', s, t, hs, h => by
    rw [eval, eval]
    refine (eval_alike hb H body ctx scope scope' s t hs h).bind fun a b hab => ?_
    obtain ⟨v, scope, s'⟩ := a
    obtain ⟨w, scope', t'⟩ := b
    obtain ⟨hv, hs', h'⟩ := hab
    cases hv with
    | none => exact ⟨_, rfl, .none, hs', h'⟩
    | some hv => exact ⟨_, rfl, .some hv, hs'.insert hv name, h'⟩
  | action a, ctx, scope, scope', s, t, hs, h => by
    rw [eval, eval]
    refine (Tracks.except (Action.eval_alike hb hs a)).bind fun v w hv => ?_
    exact ⟨_, rfl, .some hv, hs, h⟩
  | guard a, ctx, scope, scope', s, t, hs, h => by
    rw [eval, eval]
    refine (Tracks.except (Action.eval_alike hb hs a)).bind fun v w hv => ?_
    rw [hv.congr Value.isTruthy_signature, h.pos]
    split
    · exact ⟨_, rfl, .some hv, hs, h⟩
    · exact ⟨_, rfl, .none, hs, h.expect _ _⟩
  | nested body, ctx, scope, scope', s, t, hs, h => by
    rw [eval, eval]
    exact evalNested_alike (fun _ => eval_alike hb H body _) _ scope scope' s t hs h
  | capture body, ctx, scope, scope', s, t, hs, h => by
    rw [eval, eval]
    refine (eval_alike hb H body ctx scope scope' s t hs h).bind fun a b hab => ?_
    obtain ⟨v, scope, s'⟩ := a
    obtain ⟨w, scope', t'⟩ := b
    obtain ⟨hv, hs', h'⟩ := hab
    have hpos' : s'.pos = t'.pos := h'.pos
    dsimp only
    rw [h.pos, hpos']
    cases hv with
    | none => exact ⟨_, rfl, .none, hs', h'⟩
    | some hv => exact ⟨_, rfl, .some rfl, hs', h'⟩

theorem evalSequence_alike (hb : registry.Blind) (H : Applier.Alike R exempt one two) :
    ∀ (es : List Expr) (ctx : Context) {v w : Value}, v.Alike w →
      Run.Alike R exempt (evalSequence one registry es ctx v) (evalSequence two registry es ctx w)
  | [], ctx, v, w, hv, scope, scope', s, t, hs, h => by
    rw [evalSequence, evalSequence]
    exact ⟨_, rfl, .some hv, hs, h⟩
  | e :: es, ctx, v, w, hv, scope, scope', s, t, hs, h => by
    rw [evalSequence, evalSequence]
    refine (eval_alike hb H e ctx scope scope' s t hs h).bind fun a b hab => ?_
    obtain ⟨v, scope, s'⟩ := a
    obtain ⟨w, scope', t'⟩ := b
    obtain ⟨hv, hs', h'⟩ := hab
    cases hv with
    | none => exact ⟨_, rfl, .none, hs', h'⟩
    | some hv => exact evalSequence_alike hb H es ctx hv scope scope' s' t' hs' h'

theorem evalChoice_alike (hb : registry.Blind) (H : Applier.Alike R exempt one two) :
    ∀ (es : List Expr) (ctx : Context),
      Run.Alike R exempt (evalChoice one registry es ctx) (evalChoice two registry es ctx)
  | [], ctx, scope, scope', s, t, hs, h => by
    rw [evalChoice, evalChoice]
    exact ⟨_, rfl, .none, hs, h⟩
  | e :: es, ctx, scope, scope', s, t, hs, h => by
    rw [evalChoice, evalChoice, h.pos]
    refine (eval_alike hb H e ctx scope scope' s t hs h).bind fun a b hab => ?_
    obtain ⟨v, scope, s'⟩ := a
    obtain ⟨w, scope', t'⟩ := b
    obtain ⟨hv, hs', h'⟩ := hab
    cases hv with
    | none => exact evalChoice_alike hb H es ctx scope scope' _ _ hs' (h'.moveTo _)
    | some hv => exact ⟨_, rfl, .some hv, hs', h'⟩

end

end Expr

/-! ### Rules -/

section Rules

variable {one : Applier φ} {two : Applier ψ} {registry : Registry}

/-- **The body of a rule does not tell NaNs apart.** -/
theorem runBody_alike (hb : registry.Blind) (H : Applier.Alike R exempt one two) (f : Frame)
    (d o : Grammar) (r : Rule) {args args' : List Value} (ha : AlikeAll args args') :
    Attempt.Alike R exempt (runBody one registry f d o r args)
      (runBody two registry f d o r args') := by
  intro s t h
  have hscope : Scope.Alike (.ofParams r.params args) (.ofParams r.params args') :=
    Scope.ofParams_alike ha
  have hbody :=
    Expr.eval_alike hb H r.body { frame := f, dispatch := d, owner := o } _ _ s t hscope h
  exact hbody.bind fun a b hab => ⟨_, rfl, hab.value, hab.state⟩

/-- Strategies that are alike: they come to the same where the bodies of rules do. -/
def Strategy.Alike (R : Rendering φ ψ) (exempt : Halt → Prop) (one : Strategy φ)
    (two : Strategy ψ) : Prop :=
  ∀ (f : Frame) (call : Call) (body : Attempt φ) (other : Attempt ψ),
    Attempt.Alike R exempt body other → Attempt.Alike R exempt (one f call body) (two f call other)

/-- **Rules are applied as by a keyed match**, at any depth, up to the bits of NaNs. -/
theorem applyDepth_alike (hb : registry.Blind) {one : Strategy φ} {two : Strategy ψ}
    (hx : Strategy.Alike R exempt one two) (limit depth : Nat) :
    Applier.Alike R exempt (applyDepth one registry limit depth)
      (applyKeyed two registry limit depth) := by
  induction depth with
  | zero => exact fun _ _ _ _ _ _ _ _ _ _ => .inr rfl
  | succ depth ih =>
    intro f d o r args args' s t ha h
    have hcall : r.call d o args = r.call d o args' := by
      rw [Rule.call, Rule.call, show Value.signatures args = Value.signatures args' from ha]
    rw [applyKeyed_succ, applyDepth, hcall]
    exact hx f _ _ _ (runBody_alike hb ih f d o r (ha.trans (Value.alikeAll_signatures args'))) s t h

/-- A name is applied as by a keyed match, too. -/
theorem applyName_alike {f : Frame} {d : Grammar} (H : Applier.Alike R exempt one two)
    (name : String) {args args' : List Value} (ha : AlikeAll args args') :
    Attempt.Alike R exempt (applyName one f d name args) (applyName two f d name args') := by
  intro s t h
  unfold applyName
  cases d.target? name with
  | none => exact .inr rfl
  | some target => exact applyTarget_alike H ha h

end Rules

/-! ### Through the table -/

section Memoized

variable {call : Call} {keep : Bool} {body : Attempt φ} {other : Attempt ψ}

/-- What is under way in one table is so in the other. -/
theorem Memo.Matches.active_iff {m : Memo φ} {w : Memo ψ} (h : m.Matches (Entry.Alike R) w)
    {x : Spot} {met : Bool} : m.get? x = some (.active met) ↔ w.get? x = some (.active met) := by
  generalize m.get? x = a, w.get? x = b, h.get x = hab
  cases hab with
  | none => simp
  | some hab => cases hab <;> simp

theorem Memo.Matches.isLeftRecursive {m : Memo φ} {w : Memo ψ}
    (h : m.Matches (Entry.Alike R) w) (x : Spot) : m.isLeftRecursive x = w.isLeftRecursive x := by
  unfold Memo.isLeftRecursive
  generalize m.get? x = a, w.get? x = b, h.get x = hab
  cases hab with
  | none => rfl
  | some hab => cases hab <;> rfl

/-- Seeds grow alike. -/
theorem grow_alike (hb : Attempt.Alike R exempt body other) (spot : Spot) (mark fuel : Nat)
    {v w : Value} (hv : v.Alike w) (stop : Nat) (s : State φ) (t : State ψ) (h : s.Alike R t) :
    TracksExcept exempt (fun a b => a.1.Alike b.1 ∧ a.2.Alike R b.2)
      (grow body spot mark fuel v stop s) (grow other spot mark fuel w stop t) := by
  induction fuel generalizing v w stop s t with
  | zero => exact .inr rfl
  | succ fuel ih =>
    rw [grow_succ, grow_succ]
    have hseeded : (s.seeded spot mark v stop).Alike R (t.seeded spot mark w stop) :=
      ⟨rfl, (h.tables.set spot (.done stop (.some hv) R.empty)).forgetAfter mark, h.accounts⟩
    refine (hb _ _ hseeded).bind fun a b hab => ?_
    obtain ⟨v', s'⟩ := a
    obtain ⟨w', t'⟩ := b
    obtain ⟨hv', h'⟩ := hab
    have hpos' : s'.pos = t'.pos := h'.pos
    have hgrown : (s'.grown stop mark).Alike R (t'.grown stop mark) :=
      ⟨rfl, h'.tables.forgetAfter mark, h'.accounts⟩
    cases hv' with
    | none => exact ⟨_, rfl, hv, hgrown⟩
    | some hv' =>
      dsimp only
      rw [hpos']
      split
      · exact ih hv' t'.pos s' t' h'
      · exact ⟨_, rfl, hv, hgrown⟩

theorem ripened_alike (hb : Attempt.Alike R exempt body other) (f : Frame) (spot : Spot)
    (mark : Nat) :
    Attempt.Alike R exempt (ripened body f spot mark) (ripened other f spot mark) := by
  intro s t h
  unfold ripened
  refine (hb s t h).bind fun a b hab => ?_
  obtain ⟨v, s'⟩ := a
  obtain ⟨w, t'⟩ := b
  obtain ⟨hv, h'⟩ := hab
  cases hv with
  | none => exact ⟨_, rfl, .none, h'⟩
  | some hv =>
    have hpos' : s'.pos = t'.pos := h'.pos
    dsimp only
    rw [hpos', h'.tables.isLeftRecursive spot]
    split
    · refine (grow_alike hb spot mark _ hv _ s' t' h').bind fun a b hab => ?_
      exact ⟨_, rfl, .some hab.1, hab.2⟩
    · exact ⟨_, rfl, .some hv, h'⟩

/-- Applications settle alike. -/
theorem State.Alike.settled (h : s.Alike R t) {v w : Option Value}
    (hv : Option.Rel Value.Alike v w) {s' : State φ} {t' : State ψ} (h' : s'.Alike R t') (f : Frame)
    (rule : String) :
    (settle f rule s.pos s.account v s').2.Alike R (settle f rule t.pos t.account w t').2 := by
  have hsome := Value.isSome_of_alike hv
  have hnone := Value.isNone_of_alike hv
  have haccount : R.accounts (Account.ofRule f rule t.pos w.isNone s'.account)
      (Account.ofRule f rule t.pos w.isNone t'.account) := R.rule h'.accounts
  unfold settle
  rw [h.pos, h'.pos, hsome, hnone]
  exact ⟨rfl, h'.tables, R.append h.accounts haccount⟩

/-- What was put into the table ends alike, too. -/
theorem State.Alike.left (h : s.Alike R t) {v w : Option Value} (hv : Option.Rel Value.Alike v w)
    {s' : State φ} {t' : State ψ} (h' : s'.Alike R t') (f : Frame) (call : Call) :
    (s.left keep f call v s').Alike R (t.left keep f call w t') := by
  have hpos := h.pos
  have hsome := Value.isSome_of_alike hv
  have hnone := Value.isNone_of_alike hv
  have haccount : R.accounts (Account.ofRule f call.rule t.pos w.isNone s'.account)
      (Account.ofRule f call.rule t.pos w.isNone t'.account) := R.rule h'.accounts
  unfold State.left
  rw [hpos, h'.pos, hsome, hnone]
  refine ⟨rfl, ?_, R.append h.accounts haccount⟩
  cases keep with
  | true => exact h'.tables.set _ (.done _ hv haccount)
  | false => exact h'.tables.erase _

/-- **The table does not tell NaNs apart.** -/
theorem memoized_alike (keep : Bool) :
    Strategy.Alike R exempt (memoized (φ := φ) keep) (memoized (φ := ψ) keep) := by
  intro f call body other hb s t h
  have hpos := h.pos
  cases hs : s.memo.get? (s.pos, call) with
  | none =>
    have ht : t.memo.get? (t.pos, call) = none := hpos ▸ h.tables.of_none hs
    have hentered : (s.entered call).Alike R (t.entered call) := by
      unfold State.entered
      rw [hpos]
      exact ⟨rfl, h.tables.begin _ (.active false), R.empty⟩
    rw [memoized_of_none hs, memoized_of_none ht, hpos,
      show s.memo.mark = t.memo.mark from congrArg Array.size h.tables.log]
    refine (ripened_alike hb f _ _ _ _ hentered).bind fun a b hab => ?_
    exact ⟨_, rfl, hab.value, h.left hab.value hab.state f call⟩
  | some entry =>
    obtain ⟨entry', ht, hentry⟩ := h.tables.of_some hs
    rw [hpos] at ht
    cases hentry with
    | active met =>
      rw [memoized_of_active hs, memoized_of_active ht, hpos]
      exact ⟨_, rfl, .none, rfl, h.tables.set _ (.active true), h.accounts⟩
    | @done v w stop a a' hv ha =>
      have hsome := Value.isSome_of_alike hv
      rw [memoized_of_done hs, memoized_of_done ht, hpos, hsome]
      exact ⟨_, rfl, hv, (h.missed ha).moveTo _⟩

end Memoized

/-- **Rules are applied through the table as by a keyed match.** -/
theorem memoized_keyed {registry : Registry} (hb : registry.Blind) (R : Rendering φ ψ) (keep : Bool)
    (limit depth : Nat) :
    Applier.Alike R (fun _ => False) (applyDepth (memoized keep) registry limit depth)
      (applyKeyed (memoized keep) registry limit depth) :=
  applyDepth_alike hb (memoized_alike keep) limit depth

/-! ### Whole matches -/

/-- An outcome with the signature of its value. -/
def Outcome.signature : Outcome → Outcome
  | success v cursor => .success v.signature cursor
  | failure f => .failure f

namespace Engine

/-- Answers that are alike make outcomes that are. -/
theorem conclude_alike {input : Input} {toEnd : Bool} {a b : Answer Furthest}
    (h : a.Alike (.same Furthest) b) :
    (conclude input toEnd a).signature = (conclude input toEnd b).signature := by
  obtain ⟨v, s⟩ := a
  obtain ⟨w, t⟩ := b
  obtain ⟨hv, hs⟩ := h
  have hpos : s.pos = t.pos := hs.pos
  have hacc : s.account = t.account := hs.accounts
  rw [conclude_congr hpos hacc]
  cases hv with
  | none => rfl
  | some hv =>
    unfold conclude
    dsimp only
    split
    · rfl
    · exact congrArg (Outcome.success · _) hv

/-- **Ways of applying rules that are alike make whole matches that are.** -/
theorem map_conclude_alike {one two : Applier Furthest}
    (H : Applier.Alike (.same Furthest) (fun _ => False) one two) (g : Grammar) (rule : String)
    (input : Input) (args : List Value) (toEnd : Bool) :
    ((applyName one { input } g rule args (.start Account.empty)).map
        (conclude input toEnd)).map Outcome.signature =
      ((applyName two { input } g rule args (.start Account.empty)).map
        (conclude input toEnd)).map Outcome.signature := by
  have hsame : AlikeAll args args := rfl
  have h := applyName_alike (f := { input }) (d := g) H rule hsame (.start Account.empty)
    (.start Account.empty) (.start rfl)
  cases hm : applyName one { input } g rule args (.start Account.empty) with
  | error halt =>
    rw [hm] at h
    rw [h.resolve_left id]
  | ok a =>
    rw [hm] at h
    obtain ⟨b, hn, hab⟩ := h
    rw [hn]
    exact congrArg Except.ok (conclude_alike hab)

/-- **A run is a keyed one**, up to the bits of NaNs. -/
theorem run_keyed (e : Engine) (hb : e.registry.Blind) (keep : Bool) (g : Grammar) (rule : String)
    (input : Input) (args : List Value) (toEnd : Bool) :
    ((e.keeping keep).run g rule input args toEnd).map Outcome.signature =
      ((e.startKeyed (memoized keep) g rule input args).map (conclude input toEnd)).map
        Outcome.signature := by
  rw [run_eq]
  exact map_conclude_alike (memoized_keyed hb (.same Furthest) keep e.options.maxDepth
    e.options.maxDepth) g rule input args toEnd

/-- Outcomes of matches may be compared up to the bits of NaNs before the halts are reported. -/
theorem map_mapError_signature (e : Engine) (m : Except Halt Outcome) :
    (m.mapError e.causeOfHalt).map Outcome.signature =
      (m.map Outcome.signature).mapError e.causeOfHalt := by
  cases m <;> rfl

end Engine

end Packrat
