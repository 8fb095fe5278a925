import Packrat.Proofs.Direct

/-!
# Scanning a text from its front

A match addresses a text by position, looks up a name every time it comes up and keeps accounts of
its failures. A scan does none of this: it carries along what is left of the text, and every
expression is first turned into code, which does not depend on the text. What a scan finds is what
matching finds; where it would have to give an account, it says nothing. So a long text can be
matched by evaluation of terms.

* `Scan.Code`, `Expr.code`: expressions as functions from the text that is left.
* `Scan.scan`: what a name gives at the front of a text, nested at most to a depth.
* `Expr.code_faithful`: code does what its expression does.
* `Scan.scan_faithful`: a scan follows a plain match.
* `Engine.matchAll_of_scan`: what a scan of a whole text finds, the engine gives.
-/

namespace Packrat

namespace Scan

/-- What is found: a value, the position after it, and the text from there on. -/
abbrev Found := Option (Value × Nat × List Char)

/-- How names are applied, at a position and to the text from there on; `none` if that is not
known. -/
abbrev Calls := String → List Value → Nat → List Char → Option Found

/-- **Code**: what an expression does, given how names are applied, in a scope, at a position and to
the text from there on. -/
structure Code where
  run : Calls → Scope → Nat → List Char → Option (Found × Scope)

/-- The text after a word, if it begins with the word. -/
def after? : (word : List Char) → Nat → List Char → Option (Nat × List Char)
  | [], pos, cs => some (pos, cs)
  | c :: word, pos, d :: cs => if c = d then after? word (pos + 1) cs else none
  | _ :: _, _, [] => none

/-- A literal at the front of a text. -/
def literal (text : String) (pos : Nat) (cs : List Char) : Found :=
  match after? text.toList pos cs with
  | some (stop, rest) => some (.string text, stop, rest)
  | none => none

/-- One character that passes a test. -/
def charIf (test : Char → Bool) (pos : Nat) : List Char → Found
  | [] => none
  | c :: cs => if test c then some (.string c.toString, pos + 1, cs) else none

/-- What a repetition gives after the values `taken`, the latest first. -/
def repetition (min : Nat) (max : Option Nat) (taken : List Value) (pos : Nat) (cs : List Char) :
    Found :=
  if taken.length < min then none else some (repeatValue max taken.reverse.toArray, pos, cs)

/-- Rounds of a repetition. Nothing is said of a round that consumes nothing. -/
def rounds (body : Scope → Nat → List Char → Option (Found × Scope)) (min : Nat)
    (max : Option Nat) :
    (fuel : Nat) → (taken : List Value) → Scope → Nat → List Char → Option (Found × Scope)
  | 0, _, _, _, _ => none
  | fuel + 1, taken, scope, pos, cs =>
    if max.any fun max => max ≤ taken.length then some (repetition min max taken pos cs, scope)
    else
      match body scope pos cs with
      | none => none
      | some (none, scope) => some (repetition min max taken pos cs, scope)
      | some (some (v, stop, rest), scope) =>
        if pos < stop then rounds body min max fuel (v :: taken) scope stop rest else none

/-- How many rounds of a repetition are followed. -/
def roundLimit : Nat := 4096

end Scan

open Scan

namespace Expr

mutual

/-- **The code of an expression.** Texts have no contents to enter, and rules of other grammars are
not followed. -/
def code (registry : Registry) : Expr → Code
  | any => ⟨fun _ scope pos cs => some (Scan.charIf (fun _ => true) pos cs, scope)⟩
  | literal text => ⟨fun _ scope pos cs => some (Scan.literal text pos cs, scope)⟩
  | sequence items => codeSequence registry items
  | choice alternatives => codeChoice registry alternatives
  | repeated body min max =>
    ⟨fun calls scope pos cs =>
      rounds ((code registry body).run calls) min max roundLimit [] scope pos cs⟩
  | lookahead negated body =>
    ⟨fun calls scope pos cs =>
      match (code registry body).run calls scope pos cs with
      | none => none
      | some (some (v, _, _), scope) =>
        some (if negated then none else some (v, pos, cs), scope)
      | some (none, scope) => some (if negated then some (.nil, pos, cs) else none, scope)⟩
  | .apply rule args =>
    ⟨fun calls scope pos cs =>
      match Action.evalAll registry scope args with
      | .error _ => none
      | .ok values =>
        match calls rule values pos cs with
        | none => none
        | some found => some (found, scope)⟩
  | bind name body =>
    ⟨fun calls scope pos cs =>
      match (code registry body).run calls scope pos cs with
      | none => none
      | some (some (v, stop, rest), scope) =>
        some (some (v, stop, rest), scope.insert name v)
      | some (none, scope) => some (none, scope)⟩
  | action a =>
    ⟨fun _ scope pos cs =>
      match a.eval registry scope with
      | .error _ => none
      | .ok v => some (some (v, pos, cs), scope)⟩
  | capture body =>
    ⟨fun calls scope pos cs =>
      match (code registry body).run calls scope pos cs with
      | none => none
      | some (some (_, stop, rest), scope) =>
        some (some (.string (String.ofList (cs.take (stop - pos))), stop, rest), scope)
      | some (none, scope) => some (none, scope)⟩
  | terminal _ | range _ _ | super _ _ | foreign _ _ _ | guard _ | nested _ =>
    ⟨fun _ _ _ _ => none⟩

/-- The code of a sequence. -/
def codeSequence (registry : Registry) : List Expr → Code
  | [] => ⟨fun _ scope pos cs => some (some (.nil, pos, cs), scope)⟩
  | [e] => code registry e
  | e :: e' :: es =>
    ⟨fun calls scope pos cs =>
      match (code registry e).run calls scope pos cs with
      | none => none
      | some (some (_, stop, rest), scope) =>
        (codeSequence registry (e' :: es)).run calls scope stop rest
      | some (none, scope) => some (none, scope)⟩

/-- The code of a choice. -/
def codeChoice (registry : Registry) : List Expr → Code
  | [] => ⟨fun _ scope _ _ => some (none, scope)⟩
  | e :: es =>
    ⟨fun calls scope pos cs =>
      match (code registry e).run calls scope pos cs with
      | none => none
      | some (some found, scope) => some (some found, scope)
      | some (none, scope) => (codeChoice registry es).run calls scope pos cs⟩

end

end Expr

namespace Scan

/-- What a name means, with the code that carries it out. -/
inductive Job
  | rule (params : List String) (body : Code)
  | char (test : Char → Bool)
  | «end»
  | token (spaces : Code)
  | unknown

/-- What a name means to a grammar. -/
def job (registry : Registry) (g : Grammar) (name : String) : Job :=
  match g.target? name with
  | some (.rule _ r) => .rule r.params (r.body.code registry)
  | some (.builtin .space) => .char Text.isBlank
  | some (.builtin .digit) => .char Char.isDigit
  | some (.builtin .letter) => .char Text.isLetter
  | some (.builtin .end) => .end
  | some (.builtin .token) =>
    match g.resolve? "spaces" with
    | some (_, ⟨_, [], body⟩) => .token (body.code registry)
    | _ => .unknown
  | _ => .unknown

/-- Carries out what a name means. -/
def Job.run (calls : Calls) (args : List Value) (pos : Nat) (cs : List Char) : Job → Option Found
  | .rule params body =>
    if args.length = params.length then
      match body.run calls (.ofParams params args) pos cs with
      | none => none
      | some (found, _) => some found
    else none
  | .char test =>
    match args with
    | [] => some (charIf test pos cs)
    | _ => none
  | .end =>
    match args, cs with
    | [], [] => some (some (.nil, pos, []))
    | [], _ :: _ => some none
    | _, _ => none
  | .token spaces =>
    match args with
    | [.string text] =>
      match spaces.run calls [] pos cs with
      | none => none
      | some (none, _) => some none
      | some (some (_, stop, rest), _) => some (literal text stop rest)
    | _ => none
  | .unknown => none

/-- **A scan**: what a name gives at the front of a text, with rules nested at most `depth` deep. -/
def scan (registry : Registry) (g : Grammar) : (depth : Nat) → Calls
  | 0, _, _, _, _ => none
  | depth + 1, name, args, pos, cs => (job registry g name).run (scan registry g depth) args pos cs

/-! ### What is left of a text -/

/-- `cs` is what is left of a text at a position. -/
def Left (chars : Array Char) (pos : Nat) (cs : List Char) : Prop :=
  ∃ before, chars.toList = before ++ cs ∧ before.length = pos

namespace Left

variable {chars : Array Char} {pos stop : Nat} {c : Char} {cs rest : List Char}

theorem getElem? (h : Left chars pos cs) : chars[pos]? = cs.head? := by
  obtain ⟨before, h, rfl⟩ := h
  rw [← Array.getElem?_toList, h, List.getElem?_append_right (Nat.le_refl _), Nat.sub_self,
    List.head?_eq_getElem?]

theorem next (h : Left chars pos (c :: cs)) : Left chars (pos + 1) cs := by
  obtain ⟨before, h, rfl⟩ := h
  exact ⟨before ++ [c], by rw [h, List.append_assoc]; rfl, by simp⟩

theorem size_eq (h : Left chars pos cs) : chars.size = pos + cs.length := by
  obtain ⟨before, h, rfl⟩ := h
  rw [← Array.length_toList, h, List.length_append]

/-- What stands between two positions is the front of what is left at the first. -/
theorem slice (h : Left chars pos cs) :
    (Input.text chars).slice pos stop = .string (String.ofList (cs.take (stop - pos))) := by
  obtain ⟨before, h, rfl⟩ := h
  rw [Input.slice, Array.toList_extract, h, List.extract_eq_take_drop, List.drop_left]

theorem start (text : List Char) : Left text.toArray 0 text := ⟨[], rfl, rfl⟩

end Left

/-- **What a match came to that a scan has told of**: the value, and the position after it. Where
nothing is found, the match is back where it was. -/
def Told (chars : Array Char) (pos : Nat) : Found → Option Value → Nat → Prop
  | some (w, stop, rest), v, p => v = some w ∧ p = stop ∧ Left chars stop rest
  | none, v, p => v = none ∧ p = pos

section

variable {φ : Type} [Account φ] {chars : Array Char} {f : Frame} {g : Grammar} {pos : Nat}
  {cs : List Char} {apply : Applier φ} {registry : Registry}

/-- Names are applied as the calls say. -/
def Calls.Faithful (chars : Array Char) (f : Frame) (g : Grammar) (apply : Applier φ)
    (calls : Calls) : Prop :=
  ∀ ⦃name args pos cs found⦄, Left chars pos cs → calls name args pos cs = some found →
    ∀ st : State φ, st.pos = pos →
      ∃ v st', applyName apply f g name args st = .ok (v, st') ∧ Told chars pos found v st'.pos

/-- A computation does what the code says. -/
def Faithful (chars : Array Char) (run : Run φ)
    (code : Scope → Nat → List Char → Option (Found × Scope)) : Prop :=
  ∀ ⦃scope pos cs found scope'⦄, Left chars pos cs → code scope pos cs = some (found, scope') →
    ∀ st : State φ, st.pos = pos →
      ∃ v st', run scope st = .ok { value := v, scope := scope', state := st' } ∧
        Told chars pos found v st'.pos

/-! ### Single steps -/

theorem after?_eq (h : Left chars pos cs) (word : List Char) :
    match after? word pos cs with
    | some (stop, rest) => Input.runEnd? chars pos word = some stop ∧ Left chars stop rest
    | none => Input.runEnd? chars pos word = none := by
  induction word generalizing pos cs with
  | nil => exact ⟨rfl, h⟩
  | cons c word ih =>
    cases cs with
    | nil =>
      have hc : chars[pos]? = none := h.getElem?
      simp [after?, Input.runEnd?, hc]
    | cons d cs =>
      have hd : chars[pos]? = some d := h.getElem?
      by_cases hcd : c = d
      · subst hcd
        simpa [after?, Input.runEnd?, hd] using ih h.next
      · simp [after?, Input.runEnd?, hd, hcd, Ne.symm hcd]

variable (hf : f.input = .text chars)

include hf

theorem literal_told (h : Left chars pos cs) (text : String) {st : State φ} (hp : st.pos = pos) :
    ∃ v st', f.literal text st = (v, st') ∧ Told chars pos (literal text pos cs) v st'.pos := by
  subst hp
  have hend := after?_eq h text.toList
  unfold literal Frame.literal Frame.literalEnd?
  rw [hf]
  cases ha : after? text.toList st.pos cs with
  | none =>
    rw [ha] at hend
    simp only [hend]
    exact ⟨_, _, rfl, rfl, rfl⟩
  | some x =>
    rw [ha] at hend
    simp only [hend.1]
    exact ⟨_, _, rfl, rfl, rfl, hend.2⟩

theorem charIf_told (h : Left chars pos cs) (test : Char → Bool) (label : String) {st : State φ}
    (hp : st.pos = pos) :
    ∃ v st', f.charIf test label st = (v, st') ∧ Told chars pos (charIf test pos cs) v st'.pos := by
  subst hp
  unfold Frame.charIf
  rw [hf, show (Input.text chars).char? st.pos = cs.head? from h.getElem?]
  cases cs with
  | nil => exact ⟨_, _, rfl, rfl, rfl⟩
  | cons c cs =>
    simp only [List.head?_cons, charIf]
    split
    · exact ⟨_, _, rfl, rfl, rfl, h.next⟩
    · exact ⟨_, _, rfl, rfl, rfl⟩

theorem any_told (h : Left chars pos cs) {st : State φ} (hp : st.pos = pos) :
    ∃ v st', f.any st = (v, st') ∧ Told chars pos (charIf (fun _ => true) pos cs) v st'.pos := by
  subst hp
  unfold Frame.any
  rw [hf]
  simp only [Input.element?, h.getElem?]
  cases cs with
  | nil => exact ⟨_, _, rfl, rfl, rfl⟩
  | cons c cs => exact ⟨_, _, rfl, rfl, rfl, h.next⟩

omit hf

/-! ### Repetition -/

omit [Account φ] in
/-- Rounds of a repetition go as the code says, since every one of them consumes something. -/
theorem rounds_faithful {body : Run φ} {code : Scope → Nat → List Char → Option (Found × Scope)}
    (hb : Faithful chars body code) {min : Nat} {max : Option Nat} {fuel : Nat}
    {taken : List Value} {scope scope' : Scope} {found : Found} (h : Left chars pos cs)
    (hc : rounds code min max fuel taken scope pos cs = some (found, scope')) {st : State φ}
    (hp : st.pos = pos) {more : Nat} (hm : chars.size - pos < more) :
    ∃ values rest st', repeatRounds body min max more taken.reverse.toArray scope st =
        .ok (values.reverse.toArray, scope', st') ∧
      found = repetition min max values st'.pos rest ∧ Left chars st'.pos rest := by
  induction fuel generalizing taken scope pos cs st more with
  | zero => cases hc
  | succ fuel ih =>
    have hsize : taken.reverse.toArray.size = taken.length := by simp
    subst hp
    rw [rounds] at hc
    unfold repeatRounds
    rw [hsize]
    split at hc
    next hmax =>
      cases hc
      rw [if_pos hmax]
      exact ⟨taken, cs, st, rfl, rfl, h⟩
    next hmax =>
      rw [if_neg hmax]
      obtain ⟨more, rfl⟩ : ∃ n, more = n + 1 := ⟨more - 1, by omega⟩
      cases hcode : code scope st.pos cs with
      | none => rw [hcode] at hc; cases hc
      | some r =>
        obtain ⟨found', scope₁⟩ := r
        obtain ⟨v, st₁, hrun, htold⟩ := hb h hcode st rfl
        rw [hcode] at hc
        simp only [hrun, bind, Except.bind]
        rcases found' with _ | ⟨w, stop, rest⟩
        · obtain ⟨rfl, hpos⟩ := htold
          cases hc
          exact ⟨taken, cs, st₁, rfl, by rw [hpos], hpos ▸ h⟩
        · obtain ⟨rfl, rfl, hrest⟩ := htold
          dsimp only at hc ⊢
          split at hc
          next hlt =>
            -- a round that goes on has used up some of the text
            have hle := hrest.size_eq
            have hpush : taken.reverse.toArray.push w = (w :: taken).reverse.toArray := by simp
            rw [if_neg (by omega), hpush]
            exact ih hrest hc rfl (by omega)
          next => cases hc

omit [Account φ] in
theorem repeat_faithful (hf : f.input = .text chars) {body : Run φ}
    {code : Scope → Nat → List Char → Option (Found × Scope)} (hb : Faithful chars body code)
    (min : Nat) (max : Option Nat) (fuel : Nat) :
    Faithful chars (evalRepeat body min max f.input.size) (rounds code min max fuel []) := by
  intro scope pos cs found scope' h hc st hp
  have hsize : f.input.size = chars.size := by rw [hf]; rfl
  subst hp
  obtain ⟨values, rest, st', hrounds, rfl, hleft⟩ := rounds_faithful hb h hc rfl
    (Nat.lt_succ_self (chars.size - st.pos))
  have hrounds : repeatRounds body min max (chars.size - st.pos + 1) #[] scope st =
      .ok (values.reverse.toArray, scope', st') := hrounds
  have hlen : values.reverse.toArray.size = values.length := by simp
  unfold evalRepeat repetition
  simp only [hsize, hrounds, bind, Except.bind, hlen]
  split
  · exact ⟨_, _, rfl, rfl, rfl⟩
  · exact ⟨_, _, rfl, rfl, rfl, hleft⟩

omit [Account φ] in
/-- **What is made of what a scan has found** is told, if as much is made of the reply. -/
theorem Faithful.after {run run' : Run φ}
    {code code' : Scope → Nat → List Char → Option (Found × Scope)} (hb : Faithful chars run code)
    (made : Nat → List Char → Found × Scope → Found × Scope)
    (hcode : ∀ scope pos cs, code' scope pos cs = (code scope pos cs).map (made pos cs))
    (hrun : ∀ ⦃scope pos cs found scope₁ v⦄ ⦃st st' : State φ⦄, Left chars pos cs → st.pos = pos →
      run scope st = .ok { value := v, scope := scope₁, state := st' } →
        Told chars pos found v st'.pos →
          ∃ v' st'', run' scope st =
              .ok { value := v', scope := (made pos cs (found, scope₁)).2, state := st'' } ∧
            Told chars pos (made pos cs (found, scope₁)).1 v' st''.pos) :
    Faithful chars run' code' := by
  intro scope pos cs found scope' h hc st hp
  rw [hcode] at hc
  obtain ⟨⟨found₁, scope₁⟩, hfound, hmade⟩ := Option.map_eq_some_iff.1 hc
  obtain ⟨v, st', hran, htold⟩ := hb h hfound st hp
  have hmore := hrun h hp hran htold
  rw [hmade] at hmore
  exact hmore

end

end Scan

/-! ### Expressions -/

namespace Expr

variable {φ : Type} [Account φ] {chars : Array Char} {apply : Applier φ} {registry : Registry}
  {calls : Calls}

section

variable {ctx : Context} {body : Expr}

/-- The scan goes back to where it was, whatever it has found ahead. -/
theorem lookahead_faithful (negated : Bool)
    (hb : Faithful chars (body.eval apply registry ctx) ((body.code registry).run calls)) :
    Faithful chars ((lookahead negated body).eval apply registry ctx)
      (((lookahead negated body).code registry).run calls) := by
  intro scope pos cs found scope' h hc st hp
  rw [code] at hc
  dsimp only at hc
  cases hcode : (code registry body).run calls scope pos cs with
  | none => rw [hcode] at hc; cases hc
  | some r =>
    rw [hcode] at hc
    obtain ⟨found', scope₁⟩ := r
    rw [eval]
    unfold evalLookahead
    cases negated with
    | true =>
      -- what is not to be found is looked for with an account of its own
      obtain ⟨v, st', hbody, htold⟩ := hb h hcode { st with account := Account.empty } hp
      simp only [hbody, if_true]
      rcases found' with _ | ⟨w, stop, rest⟩
      · obtain ⟨rfl, -⟩ := htold
        cases hc
        exact ⟨_, _, rfl, rfl, hp, h⟩
      · obtain ⟨rfl, -⟩ := htold
        cases hc
        exact ⟨_, _, rfl, rfl, hp⟩
    | false =>
      obtain ⟨v, st', hbody, htold⟩ := hb h hcode st hp
      simp only [hbody, Bool.false_eq_true, if_false]
      rcases found' with _ | ⟨w, stop, rest⟩
      · obtain ⟨rfl, -⟩ := htold
        cases hc
        exact ⟨_, _, rfl, rfl, hp⟩
      · obtain ⟨rfl, -⟩ := htold
        cases hc
        exact ⟨_, _, rfl, rfl, hp, h⟩

/-- What is found is bound to the name. -/
theorem bind_faithful (name : String)
    (hb : Faithful chars (body.eval apply registry ctx) ((body.code registry).run calls)) :
    Faithful chars ((bind name body).eval apply registry ctx)
      (((bind name body).code registry).run calls) := by
  refine hb.after (fun _ _ x => (x.1, x.1.elim x.2 fun w => x.2.insert name w.1))
    (fun scope pos cs => ?_) ?_
  · rw [code]
    dsimp only
    rcases (code registry body).run calls scope pos cs with _ | ⟨_ | _, _⟩ <;> rfl
  · rintro scope pos cs (_ | ⟨w, stop, rest⟩) scope₁ v st st' h hp hran ⟨rfl, hend⟩
    · rw [eval, hran]
      exact ⟨_, _, rfl, rfl, hend⟩
    · rw [eval, hran]
      exact ⟨_, _, rfl, rfl, hend⟩

/-- What is found is the text that was passed over. -/
theorem capture_faithful (hf : ctx.frame.input = .text chars)
    (hb : Faithful chars (body.eval apply registry ctx) ((body.code registry).run calls)) :
    Faithful chars ((capture body).eval apply registry ctx)
      (((capture body).code registry).run calls) := by
  refine hb.after
    (fun pos cs x => (x.1.map fun w => (.string (String.ofList (cs.take (w.2.1 - pos))), w.2), x.2))
    (fun scope pos cs => ?_) ?_
  · rw [code]
    dsimp only
    rcases (code registry body).run calls scope pos cs with _ | ⟨_ | _, _⟩ <;> rfl
  · rintro scope pos cs (_ | ⟨w, stop, rest⟩) scope₁ v st st' h hp hran ⟨rfl, hend⟩
    · rw [eval, hran]
      exact ⟨_, _, rfl, rfl, hend⟩
    · obtain ⟨rfl, hrest⟩ := hend
      subst hp
      rw [eval, hran]
      refine ⟨_, _, rfl, ?_, rfl, hrest⟩
      rw [Option.map_some, hf, h.slice]

/-- A name is applied as the calls say. -/
theorem apply_faithful (hcalls : calls.Faithful chars ctx.frame ctx.dispatch apply) (rule : String)
    (args : List Action) :
    Faithful chars ((Expr.apply rule args).eval apply registry ctx)
      (((Expr.apply rule args).code registry).run calls) := by
  intro scope pos cs found scope' h hc st hp
  rw [code] at hc
  dsimp only at hc
  cases hargs : Action.evalAll registry scope args with
  | error c => rw [hargs] at hc; cases hc
  | ok values =>
    rw [hargs] at hc
    dsimp only at hc
    cases hcall : calls rule values pos cs with
    | none => rw [hcall] at hc; cases hc
    | some found' =>
      rw [hcall] at hc
      cases hc
      obtain ⟨v, st', happly, htold⟩ := hcalls h hcall st hp
      refine ⟨v, st', ?_, htold⟩
      rw [eval, hargs]
      show (applyName apply ctx.frame ctx.dispatch rule values st >>= _) = _
      rw [happly]
      rfl

/-- An action finds its value, and passes over nothing. -/
theorem action_faithful (a : Action) :
    Faithful chars ((action a).eval apply registry ctx)
      (((action a).code registry).run calls) := by
  intro scope pos cs found scope' h hc st hp
  rw [code] at hc
  dsimp only at hc
  cases ha : a.eval registry scope with
  | error c => rw [ha] at hc; cases hc
  | ok v =>
    rw [ha] at hc
    cases hc
    rw [eval, ha]
    exact ⟨_, _, rfl, rfl, hp, h⟩

end

mutual

/-- **Code does what its expression does.** -/
theorem code_faithful : ∀ (e : Expr) (ctx : Context), ctx.frame.input = .text chars →
    calls.Faithful chars ctx.frame ctx.dispatch apply →
      Faithful chars (e.eval apply registry ctx) ((e.code registry).run calls)
  | any, ctx, hf, _ => by
    intro scope pos cs found scope' h hc st hp
    rw [code] at hc
    cases hc
    obtain ⟨v, st', hany, htold⟩ := any_told hf h hp
    rw [eval, hany]
    exact ⟨v, st', rfl, htold⟩
  | literal text, ctx, hf, _ => by
    intro scope pos cs found scope' h hc st hp
    rw [code] at hc
    cases hc
    obtain ⟨v, st', hlit, htold⟩ := literal_told hf h text hp
    rw [eval, hlit]
    exact ⟨v, st', rfl, htold⟩
  | sequence items, ctx, hf, hcalls => by
    intro scope pos cs found scope' h hc st hp
    rw [code] at hc
    obtain ⟨v, st', p, hseq, htold⟩ := codeSequence_faithful items
      { ctx with sequenceStart := some st.pos } hf hcalls .nil (fun _ => rfl) h hc st hp
    rw [eval, hseq]
    rcases found with _ | ⟨w, stop, rest⟩
    · obtain ⟨rfl, -⟩ := htold
      exact ⟨_, _, rfl, rfl, hp⟩
    · obtain ⟨rfl, hstop⟩ := htold
      exact ⟨_, _, rfl, rfl, hstop⟩
  | choice alternatives, ctx, hf, hcalls => by
    intro scope pos cs found scope' h hc st hp
    rw [code] at hc
    rw [eval]
    exact codeChoice_faithful alternatives ctx hf hcalls h hc st hp
  | repeated body min max, ctx, hf, hcalls => by
    intro scope pos cs found scope' h hc st hp
    rw [code] at hc
    rw [eval]
    exact repeat_faithful hf (code_faithful body ctx hf hcalls) min max roundLimit h hc st hp
  | lookahead negated body, ctx, hf, hcalls =>
    lookahead_faithful negated (code_faithful body ctx hf hcalls)
  | .apply rule args, _, _, hcalls => apply_faithful hcalls rule args
  | bind name body, ctx, hf, hcalls => bind_faithful name (code_faithful body ctx hf hcalls)
  | action a, _, _, _ => action_faithful a
  | capture body, ctx, hf, hcalls => capture_faithful hf (code_faithful body ctx hf hcalls)
  | terminal _, _, _, _ => by intro _ _ _ _ _ _ hc; rw [code] at hc; cases hc
  | range _ _, _, _, _ => by intro _ _ _ _ _ _ hc; rw [code] at hc; cases hc
  | super _ _, _, _, _ => by intro _ _ _ _ _ _ hc; rw [code] at hc; cases hc
  | foreign _ _ _, _, _, _ => by intro _ _ _ _ _ _ hc; rw [code] at hc; cases hc
  | guard _, _, _, _ => by intro _ _ _ _ _ _ hc; rw [code] at hc; cases hc
  | nested _, _, _, _ => by intro _ _ _ _ _ _ hc; rw [code] at hc; cases hc

/-- Likewise for a sequence, which may be anywhere when an item is not found. -/
theorem codeSequence_faithful : ∀ (es : List Expr) (ctx : Context),
    ctx.frame.input = .text chars → calls.Faithful chars ctx.frame ctx.dispatch apply →
      ∀ last, (es = [] → last = .nil) → ∀ ⦃scope pos cs found scope'⦄, Left chars pos cs →
        (codeSequence registry es).run calls scope pos cs = some (found, scope') →
          ∀ st : State φ, st.pos = pos → ∃ v st' p,
            evalSequence apply registry es ctx last scope st =
                .ok { value := v, scope := scope', state := st' } ∧ Told chars p found v st'.pos
  | [], ctx, _, _, last, hlast => by
    intro scope pos cs found scope' h hc st hp
    rw [codeSequence] at hc
    cases hc
    rw [evalSequence, hlast rfl]
    exact ⟨_, _, pos, rfl, rfl, hp, h⟩
  | [e], ctx, hf, hcalls, last, _ => by
    intro scope pos cs found scope' h hc st hp
    rw [codeSequence] at hc
    obtain ⟨v, st', he, htold⟩ := code_faithful e ctx hf hcalls h hc st hp
    refine ⟨v, st', pos, ?_, htold⟩
    rw [evalSequence, he]
    cases v with
    | none => rfl
    | some v =>
      show evalSequence apply registry [] ctx v scope' st' = _
      rw [evalSequence]
  | e :: e' :: es, ctx, hf, hcalls, last, _ => by
    intro scope pos cs found scope' h hc st hp
    rw [codeSequence] at hc
    dsimp only at hc
    cases hcode : (code registry e).run calls scope pos cs with
    | none => rw [hcode] at hc; cases hc
    | some r =>
      rw [hcode] at hc
      obtain ⟨found', scope₁⟩ := r
      obtain ⟨v, st', he, htold⟩ := code_faithful e ctx hf hcalls h hcode st hp
      rw [evalSequence, he]
      rcases found' with _ | ⟨w, stop, rest⟩
      · obtain ⟨rfl, hpos⟩ := htold
        cases hc
        exact ⟨_, _, pos, rfl, rfl, hpos⟩
      · obtain ⟨rfl, rfl, hrest⟩ := htold
        exact codeSequence_faithful (e' :: es) ctx hf hcalls w nofun hrest hc st' rfl

theorem codeChoice_faithful : ∀ (es : List Expr) (ctx : Context),
    ctx.frame.input = .text chars → calls.Faithful chars ctx.frame ctx.dispatch apply →
      Faithful chars (evalChoice apply registry es ctx) ((codeChoice registry es).run calls)
  | [], ctx, _, _ => by
    intro scope pos cs found scope' h hc st hp
    rw [codeChoice] at hc
    cases hc
    rw [evalChoice]
    exact ⟨_, _, rfl, rfl, hp⟩
  | e :: es, ctx, hf, hcalls => by
    intro scope pos cs found scope' h hc st hp
    rw [codeChoice] at hc
    dsimp only at hc
    cases hcode : (code registry e).run calls scope pos cs with
    | none => rw [hcode] at hc; cases hc
    | some r =>
      rw [hcode] at hc
      obtain ⟨found', scope₁⟩ := r
      obtain ⟨v, st', he, htold⟩ := code_faithful e ctx hf hcalls h hcode st hp
      rw [evalChoice, he]
      rcases found' with _ | ⟨w, stop, rest⟩
      · obtain ⟨rfl, -⟩ := htold
        exact codeChoice_faithful es ctx hf hcalls h hc (st'.moveTo st.pos) hp
      · obtain ⟨rfl, hstop⟩ := htold
        cases hc
        exact ⟨_, _, rfl, rfl, hstop⟩

end

end Expr

/-! ### Names -/

namespace Scan

variable {φ : Type} [Account φ] {chars : Array Char} {f : Frame} {g d o : Grammar}
  {registry : Registry} {limit depth pos : Nat} {cs : List Char} {calls : Calls}

/-- A rule comes to what its body comes to. -/
theorem body_told {r : Rule} {args : List Value} {found : Found} {st inside : State φ}
    {v : Option Value} {scope : Scope} (hp : st.pos = pos)
    (hbody : r.body.eval (applyDepth direct registry limit depth) registry
      { frame := f, dispatch := g, owner := o } (.ofParams r.params args)
      { st with account := Account.empty } = .ok { value := v, scope, state := inside })
    (htold : Told chars pos found v inside.pos) :
    ∃ v st', applyDepth direct registry limit (depth + 1) f g o r args st = .ok (v, st') ∧
      Told chars pos found v st'.pos := by
  have hrun : applyDepth direct registry limit (depth + 1) f g o r args st =
      .ok (v, (settle f r.name st.pos st.account v inside).2) := by
    show (runBody _ _ _ _ _ _ _ _ >>= _) = _
    unfold runBody
    rw [hbody]
    rfl
  refine ⟨v, _, hrun, ?_⟩
  rcases found with _ | ⟨w, stop, rest⟩
  · obtain ⟨rfl, -⟩ := htold
    exact ⟨rfl, hp⟩
  · obtain ⟨rfl, hstop⟩ := htold
    exact ⟨rfl, hstop⟩

/-- A rule whose body the code carries out is applied as the code says. -/
theorem rule_told (hf : f.input = .text chars)
    (hc : calls.Faithful chars f g (applyDepth (direct (φ := φ)) registry limit depth)) {r : Rule}
    {args : List Value} {found : Found} {scope : Scope} (h : Left chars pos cs)
    (hr : (r.body.code registry).run calls (.ofParams r.params args) pos cs = some (found, scope))
    {st : State φ} (hp : st.pos = pos) :
    ∃ v st', applyDepth direct registry limit (depth + 1) f g o r args st = .ok (v, st') ∧
      Told chars pos found v st'.pos := by
  obtain ⟨v, inside, hbody, htold⟩ := r.body.code_faithful
    { frame := f, dispatch := g, owner := o } hf hc h hr { st with account := Account.empty } hp
  exact body_told hp hbody htold

/-- A built-in rule that takes one character. -/
theorem char_told (hf : f.input = .text chars) {apply : Applier φ} {b : Builtin}
    {test : Char → Bool} {label : String} {args : List Value} {found : Found}
    (hb : ∀ st : State φ, applyTarget apply f g (.builtin b) [] st = .ok (f.charIf test label st))
    (h : Left chars pos cs) (hs : (Job.char test).run calls args pos cs = some found)
    {st : State φ} (hp : st.pos = pos) :
    ∃ v st', applyTarget apply f g (.builtin b) args st = .ok (v, st') ∧
      Told chars pos found v st'.pos := by
  cases args with
  | cons v rest => cases hs
  | nil =>
    cases hs
    obtain ⟨v, st', hchar, htold⟩ := charIf_told hf h test label hp
    exact ⟨v, st', by rw [hb, hchar], htold⟩

/-- A token. -/
theorem token_told (hf : f.input = .text chars)
    (hc : calls.Faithful chars f g (applyDepth (direct (φ := φ)) registry limit depth)) {r : Rule}
    (hr : g.resolve? "spaces" = some (o, r)) (hparams : r.params = []) {args : List Value}
    {found : Found} (h : Left chars pos cs)
    (hs : (Job.token (r.body.code registry)).run calls args pos cs = some found)
    {st : State φ} (hp : st.pos = pos) :
    ∃ v st', applyTarget (applyDepth direct registry limit (depth + 1)) f g (.builtin .token) args
        st = .ok (v, st') ∧ Told chars pos found v st'.pos := by
  simp only [Job.run] at hs
  split at hs
  next text =>
    have htoken : applyTarget (applyDepth (direct (φ := φ)) registry limit (depth + 1)) f g
        (.builtin .token) [.string text] st =
        applyToken (applyDepth direct registry limit (depth + 1)) f g (.string text) st := by
      unfold applyTarget
      rfl
    have hspaces : applySpaces (applyDepth (direct (φ := φ)) registry limit (depth + 1)) f g st =
        applyDepth direct registry limit (depth + 1) f g o r [] st := by
      unfold applySpaces
      rw [hr]
      simp only [Target.checkCount, Target.arity, hparams]
      rfl
    rw [htoken]
    unfold applyToken
    rw [hspaces]
    cases hrun : (r.body.code registry).run calls [] pos cs with
    | none => rw [hrun] at hs; cases hs
    | some x =>
      rw [hrun] at hs
      obtain ⟨found', scope⟩ := x
      have hrun' : (r.body.code registry).run calls (.ofParams r.params []) pos cs =
          some (found', scope) := by rw [hparams]; exact hrun
      obtain ⟨v, st', happly, htold⟩ := rule_told (o := o) hf hc h hrun' hp
      rw [happly]
      rcases found' with _ | ⟨w, stop, rest⟩
      · obtain ⟨rfl, hpos⟩ := htold
        cases hs
        exact ⟨_, _, rfl, rfl, hpos⟩
      · obtain ⟨rfl, hstop, hrest⟩ := htold
        cases hs
        obtain ⟨v', st'', hlit, htold'⟩ := literal_told (φ := φ) hf hrest text hstop
        have hsequel : f.sequel (.string text) st' = .ok (v', st'') := congrArg Except.ok hlit
        simp only [hsequel, bind, Except.bind]
        generalize literal text stop rest = found at htold' ⊢
        rcases found with _ | ⟨w, stop, rest⟩
        · obtain ⟨rfl, -⟩ := htold'
          exact ⟨_, _, rfl, rfl, hp⟩
        · obtain ⟨rfl, hstop'⟩ := htold'
          exact ⟨_, _, rfl, rfl, hstop'⟩
  next => cases hs

/-- The end of a text. -/
theorem end_told (hf : f.input = .text chars) {apply : Applier φ} {args : List Value}
    {found : Found} (h : Left chars pos cs) (hs : Job.end.run calls args pos cs = some found)
    {st : State φ} (hp : st.pos = pos) :
    ∃ v st', applyTarget apply f g (.builtin .end) args st = .ok (v, st') ∧
      Told chars pos found v st'.pos := by
  have hsize : f.input.size = pos + cs.length := by rw [hf]; exact h.size_eq
  simp only [Job.run] at hs
  unfold applyTarget
  subst hp
  split at hs
  · cases hs
    have hle : f.input.size ≤ st.pos := by rw [hsize]; simp
    refine ⟨some .nil, st.moveTo st.pos, ?_, rfl, rfl, h⟩
    show Except.ok (if f.input.size ≤ st.pos then _ else _) = _
    rw [if_pos hle]
    rfl
  · cases hs
    have hgt : ¬ f.input.size ≤ st.pos := by rw [hsize]; simp
    refine ⟨none, st.expect f st.pos "end of input", ?_, rfl, rfl⟩
    show Except.ok (if f.input.size ≤ st.pos then _ else _) = _
    rw [if_neg hgt]
    rfl
  · cases hs

/-- **A scan follows a plain match.** -/
theorem scan_faithful (hf : f.input = .text chars) (registry : Registry) (g : Grammar)
    (limit depth : Nat) :
    (scan registry g depth).Faithful chars f g
      (applyDepth (direct (φ := φ)) registry limit depth) := by
  induction depth with
  | zero => intro name args pos cs found h hs; cases hs
  | succ depth ih =>
    intro name args pos cs found h hs st hp
    rw [scan, job] at hs
    unfold applyName
    cases ht : g.target? name with
    | none => rw [ht] at hs; cases hs
    | some target =>
      rw [ht] at hs
      cases target with
      | rule o r =>
        simp only [Job.run] at hs
        dsimp only at hs ⊢
        split at hs
        next hcount =>
          have hcheck : (Target.rule o r).checkCount args = .ok () := by
            simp [Target.checkCount, Target.arity, Arity.accepts, hcount]
          cases hrun : (r.body.code registry).run (scan registry g depth)
              (.ofParams r.params args) pos cs with
          | none => rw [hrun] at hs; cases hs
          | some x =>
            rw [hrun] at hs
            cases hs
            obtain ⟨v, st', happly, htold⟩ := rule_told (o := o) hf ih h hrun hp
            refine ⟨v, st', ?_, htold⟩
            unfold applyTarget
            rw [hcheck]
            exact happly
        next => cases hs
      | builtin b =>
        cases b with
        | space | digit | letter =>
          exact char_told hf (fun st => by unfold applyTarget; rfl) h hs hp
        | «end» => exact end_told hf h hs hp
        | token =>
          dsimp only at hs
          split at hs
          next o name' body hr => exact token_told hf ih hr rfl h hs hp
          next => cases hs
        | _ => cases hs

end Scan

namespace Engine

/-- **What a scan of a whole text finds, the engine gives**, with or without kept results, if there
are no NaNs in it. -/
theorem matchAll_of_scan (e : Engine) (hb : e.registry.Blind) {g : Grammar} {rule : String}
    {source : String} {v : Value} {stop : Nat}
    (h : scan e.registry g e.options.maxDepth rule [] 0 source.toList = some (some (v, stop, [])))
    (hv : v.equals v = true) :
    e.matchAll g rule (.ofString source) = .ok v := by
  obtain ⟨w, st, happly, rfl, rfl, hleft⟩ := scan_faithful (φ := Furthest)
    (f := { input := .ofString source }) rfl e.registry g e.options.maxDepth e.options.maxDepth
    (.start source.toList) h (.start Account.empty) rfl
  have hsize : (Input.ofString source).size = st.pos := hleft.size_eq
  have hdirect : e.runDirectly g rule (.ofString source) [] true =
      .ok (.success v { input := .ofString source, pos := st.pos }) := by
    unfold runDirectly
    rw [happly]
    simp [Except.map, conclude, hsize]
  unfold matchAll
  rw [run_eq_of_runDirectly e hb hdirect hv]
  rfl

end Engine

end Packrat
