import Packrat.Engine
import Packrat.Proofs.Likeness

/-!
# Whole runs

A run applies a rule at the start of an input and makes an outcome of the answer. Only the answer's
value, position and account count for the outcome.

* `Engine.conclude`: the outcome of an answer.
* `Engine.run_eq`: a run in its two parts.
* `Engine.map_conclude_of_follows`: what comes of matches that follow one another.
* `Engine.keeping`: the engine with results kept or not.
* `Limited`: a computation that was cut off for its depth.
* `Likeness.uncut`: runs that are the same unless one of them was.
-/

namespace Packrat

/-- What matches come to can be compared. -/
instance decidableEqResult {ε α : Type} [DecidableEq ε] [DecidableEq α] : DecidableEq (Except ε α)
  | .error a, .error b => decidable_of_iff (a = b) ⟨congrArg Except.error, Except.error.inj⟩
  | .ok a, .ok b => decidable_of_iff (a = b) ⟨congrArg Except.ok, Except.ok.inj⟩
  | .error _, .ok _ => isFalse nofun
  | .ok _, .error _ => isFalse nofun

/-- Whether a run was ended by the limit on nesting. -/
def Halt.isLimit : Halt → Bool
  | .fatal (.recursionLimit _) => true
  | _ => false

/-- A computation that is ended by the limit on nesting. -/
def Limited {α : Type} (m : Except Halt α) : Prop := ∃ h, m = .error h ∧ h.isLimit = true

theorem Limited.bind {α β : Type} {m : Except Halt α} (h : Limited m) (k : α → Except Halt β) :
    Limited (m >>= k) := by
  obtain ⟨halt, rfl, hl⟩ := h
  exact ⟨halt, rfl, hl⟩

theorem Limited.map {α β : Type} {m : Except Halt α} (h : Limited m) (k : α → β) :
    Limited (m.map k) := by
  obtain ⟨halt, rfl, hl⟩ := h
  exact ⟨halt, rfl, hl⟩

theorem Limited.of_map {α β : Type} {m : Except Halt α} {k : α → β} (h : Limited (m.map k)) :
    Limited m := by
  obtain ⟨halt, hm, hl⟩ := h
  cases m with
  | error e => cases hm; exact ⟨halt, rfl, hl⟩
  | ok a => cases hm

/-- **Runs that are the same** wherever the second is not cut off. -/
def Likeness.uncut (φ : Type) [Account φ] : Likeness φ φ :=
  .ofTables (fun halt => halt.isLimit = true) (fun _ => Eq) rfl

namespace Engine

/-- A run that does not report the limit was not ended by it. -/
theorem not_limited (e : Engine) {α : Type} {m : Except Halt α}
    (h : ∀ limit, m.mapError e.causeOfHalt ≠ .error (.recursionLimit limit)) : ¬ Limited m := by
  rintro ⟨halt, rfl, hl⟩
  cases halt with
  | exhausted => cases hl
  | fatal cause =>
    cases cause with
    | recursionLimit limit => exact h limit rfl
    | _ => cases hl

/-- What a run makes of the answer of the rule. -/
def conclude (input : Input) (toEnd : Bool) (r : Answer Furthest) : Outcome :=
  match r.1 with
  | some v =>
    if toEnd && r.2.pos < input.size then
      .failure ((r.2.expect { input } r.2.pos "end of input").report { input })
    else .success v { input, pos := r.2.pos }
  | none => .failure (r.2.report { input })

/-- **A run in its parts**: the rule is applied, and its answer makes the outcome. -/
theorem run_eq (e : Engine) (g : Grammar) (rule : String) (input : Input) (args : List Value)
    (toEnd : Bool) :
    e.run g rule input args toEnd = (e.start g rule input args).map (conclude input toEnd) := by
  unfold run
  cases e.start (φ := Furthest) g rule input args with
  | error h => rfl
  | ok r =>
    obtain ⟨v, st⟩ := r
    cases v with
    | none => rfl
    | some v =>
      show (if _ then _ else _) = Except.ok (if _ then _ else _)
      split <;> rfl

/-- A run ends early only as the rule does. -/
theorem run_error (e : Engine) {g : Grammar} {rule : String} {input : Input} {args : List Value}
    {toEnd : Bool} {h : Halt} (hr : e.run g rule input args toEnd = .error h) :
    e.start (φ := Furthest) g rule input args = .error h := by
  rw [run_eq] at hr
  cases hs : e.start (φ := Furthest) g rule input args with
  | error h' => rw [hs] at hr; cases hr; rfl
  | ok r => rw [hs] at hr; cases hr

/-- A run looks at the position and the account that a match leaves behind, not at the table. -/
theorem conclude_congr {input : Input} {toEnd : Bool} {v : Option Value} {s t : State Furthest}
    (hpos : s.pos = t.pos) (hacc : s.account = t.account) :
    conclude input toEnd (v, s) = conclude input toEnd (v, t) := by
  obtain ⟨pos, memo, account⟩ := s
  obtain ⟨pos', memo', account'⟩ := t
  cases hpos
  cases hacc
  rfl

/-- **Matches that follow one another come to the same outcome**, if they end at the same position
with the same account. -/
theorem map_conclude_of_follows {exempt : Halt → Prop}
    {like : State Furthest → State Furthest → Prop}
    (hlike : ∀ s t, like s t → s.pos = t.pos ∧ s.account = t.account)
    {m n : Except Halt (Answer Furthest)} (h : Follows exempt like m n)
    (hn : ∀ halt, n = .error halt → ¬ exempt halt) (input : Input) (toEnd : Bool) :
    m.map (conclude input toEnd) = n.map (conclude input toEnd) := by
  cases n with
  | error halt => rw [h.resolve_left (hn halt rfl)]
  | ok r =>
    obtain ⟨s, rfl, hl⟩ := h
    obtain ⟨hpos, hacc⟩ := hlike s r.2 hl
    exact congrArg Except.ok (conclude_congr hpos hacc)

/-- The engine with results kept or not. -/
def keeping (e : Engine) (keep : Bool) : Engine :=
  { e with options := { e.options with memoize := keep } }

end Engine

/-- Left recursion, a repetition, and a name that is looked up at run time:
`list = list ',' item / item`, `item = apply('word')` and `word = 'a'+`. -/
def Draft.lists : Draft :=
  { name := "Lists"
    rules := [
      { name := "list"
        body := .choice [.sequence [.app "list", .literal ",", .app "item"], .app "item"] },
      { name := "item", body := .apply "apply" [.literal (.string "word")] },
      { name := "word", body := .repeated (.literal "a") 1 none }] }

end Packrat
