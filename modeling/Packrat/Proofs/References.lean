import Packrat.Proofs.Failing
import Packrat.Proofs.Safety
import Packrat.Translate

/-!
# References

A built grammar was checked against itself only, but its rules run on behalf of its heirs, and the
rules of a grammar that it imports run on behalf of that one or of one further away. The check is
enough all the same: the grammar that a rule belongs to is always in the line of ancestors of the
grammar that it runs for, and names are never lost on the way down that line.

* `Target.InLine`: what is applied belongs to the line of the grammar in force.
* `Expr.application?_checked`: what a checked application means.
* `Engine.no_unresolved_reference`: no run of a built grammar comes upon a name without a meaning.
-/

namespace Packrat

variable {d o g p : Grammar} {target : Target} {name : String}

/-- **What is applied belongs to the line of `d`**: the owner of a rule is `d` or an ancestor. -/
def Target.InLine (d : Grammar) : Target → Prop
  | .rule o _ => Grammar.Descends d o
  | .builtin _ => True

theorem Target.InLine.of_descends (hd : Grammar.Descends d p) (h : target.InLine p) :
    target.InLine d := by
  cases target with
  | rule o r => exact hd.trans h
  | builtin b => trivial

/-- What a name means to a grammar belongs to its line. -/
theorem Grammar.target?_inLine (h : g.target? name = some target) : target.InLine g := by
  unfold Grammar.target? at h
  cases hr : g.resolve? name with
  | none =>
    rw [hr] at h
    obtain ⟨b, -, rfl⟩ := Option.map_eq_some_iff.1 h
    trivial
  | some or =>
    rw [hr] at h
    cases h
    exact (resolve?_eq_some name g hr).1

/-- What a checked name means, and that it takes the given number of arguments. -/
theorem Grammar.checkCall_eq_ok {home : String} {count : Nat}
    (h : g.checkCall home name count = .ok ()) :
    ∃ target, g.target? name = some target ∧ target.arity.accepts count = true := by
  unfold checkCall at h
  split at h
  · cases h
  next target ht =>
    split at h
    next ha => exact ⟨target, ht, ha⟩
    next => cases h

/-- How the number of arguments of an application came to be checked: for what is applied itself, or
else for what the name means where the application is written. -/
def Expr.Counted (d o : Grammar) (e : Expr) (count : Nat) (target : Target) : Prop :=
  target.arity.accepts count = true ∨
    ∃ name args first, e = .apply name args ∧ d.target? name = some target ∧
      o.target? name = some first ∧ first.arity.accepts count = true

/-- **What a checked application means** where a rule of `o` runs on behalf of an heir `d`:
something in the line of the grammar that is in force from there on. -/
theorem Expr.application?_checked {e : Expr} {as : List Action}
    {meaning : Except Cause (Grammar × Target)} (hc : o.checkApplication e = .ok ())
    (hm : e.application? d o = some (as, meaning)) (hd : Grammar.Descends d o)
    (hb : Grammar.Built d) :
    ∃ g target, meaning = .ok (g, target) ∧ Grammar.Built g ∧ target.InLine g ∧
      e.Counted d o as.length target := by
  cases e with
  | apply rule args =>
    simp only [application?, Option.some.injEq, Prod.mk.injEq] at hm
    obtain ⟨rfl, rfl⟩ := hm
    obtain ⟨first, hf, ha⟩ := Grammar.checkCall_eq_ok hc
    -- the name meant something to the owner, so it does to the heir, perhaps another rule
    have hs : (d.target? rule).isSome := hd.target?_isSome (by rw [hf]; rfl)
    obtain ⟨target, ht⟩ := Option.isSome_iff_exists.1 hs
    rw [ht]
    exact ⟨d, target, rfl, hb, Grammar.target?_inLine ht, .inr ⟨rule, args, first, rfl, ht, hf, ha⟩⟩
  | super rule args =>
    simp only [application?, Option.some.injEq, Prod.mk.injEq] at hm
    obtain ⟨rfl, rfl⟩ := hm
    simp only [Grammar.checkApplication] at hc
    cases hp : o.parent with
    | none => rw [hp] at hc; cases hc
    | some p =>
      rw [hp] at hc
      obtain ⟨target, ht, ha⟩ := Grammar.checkCall_eq_ok hc
      rw [Option.bind_some, ht]
      -- the rule belongs to the line of the parent, so to that of the heir
      have hdp : Grammar.Descends d p := hd.trans (.heir hp (.self p))
      exact ⟨d, target, rfl, hb, (Grammar.target?_inLine ht).of_descends hdp, .inl ha⟩
  | foreign grammar rule args =>
    simp only [application?, Option.some.injEq, Prod.mk.injEq] at hm
    obtain ⟨rfl, rfl⟩ := hm
    simp only [Grammar.checkApplication] at hc
    cases hi : o.import? grammar with
    | none => rw [hi] at hc; cases hc
    | some i =>
      rw [hi] at hc
      obtain ⟨target, ht, ha⟩ := Grammar.checkCall_eq_ok hc
      have hbi : Grammar.Built i := Grammar.Built.of_import? grammar o (.of_descends hd hb) hi
      simp only [ht]
      exact ⟨i, target, rfl, hbi, Grammar.target?_inLine ht, .inl ha⟩
  | _ => simp [application?] at hm

/-- **What may be applied** on behalf of a grammar that was built: a rule that its line owns. -/
structure Sound (d : Grammar) (target : Target) : Prop where
  built : Grammar.Built d
  inLine : target.InLine d
  grounded : target.Grounded

namespace Sound

theorem of_target? (hb : Grammar.Built d) (h : d.target? name = some target) : Sound d target :=
  ⟨hb, Grammar.target?_inLine h, Grammar.target?_grounded h⟩

theorem of_resolve? {r : Rule} (hb : Grammar.Built d) (h : d.resolve? name = some (o, r)) :
    Sound d (.rule o r) :=
  ⟨hb, (Grammar.resolve?_eq_some name d h).1, Grammar.resolve?_grounded h⟩

/-- **One application leads to the next**: in the body of a rule that may be applied, every
application means something that may be applied. -/
theorem application {r : Rule} (h : Sound d (.rule o r)) {e : Expr} (he : e ∈ r.body.subexprs)
    {as : List Action} {meaning : Except Cause (Grammar × Target)}
    (hm : e.application? d o = some (as, meaning)) :
    ∃ g target, meaning = .ok (g, target) ∧ Sound g target ∧ e.Counted d o as.length target := by
  have ho : Grammar.Built o := .of_descends h.inLine h.built
  have hr : r ∈ o.rules := List.mem_of_find?_eq_some h.grounded
  obtain ⟨g, target, rfl, hg, hl, hn⟩ :=
    e.application?_checked (ho.checked hr he) hm h.inLine h.built
  exact ⟨g, target, rfl, ⟨hg, hl, e.application?_grounded hm⟩, hn⟩

end Sound

/-- Whether an error says that a name means nothing. -/
def Cause.isUnresolved : Cause → Bool
  | unknownRule _ _ | unknownGrammar _ => true
  | _ => false

/-- Errors of actions are about no name of a rule or a grammar. -/
theorem Tame.resolved {α : Type} {m : Except Cause α} (h : Tame m) {c : Cause} (hc : m = .error c) :
    c.isUnresolved = false := by
  have hcat := h c hc
  cases c <;> first | rfl | cases hcat

/-- Runs on behalf of built grammars never come upon a name without a meaning. -/
theorem safety_of_references {registry : Registry} (hr : registry.OfStandard) :
    Safety registry (fun h => ∀ c, h = .fatal c → c.isUnresolved = false)
      fun d target _ => Sound d target where
  count _ _ c hc := by cases hc; rfl
  type c hc := by cases hc; rfl
  action he c hc := by cases hc; exact (Action.eval_tame hr _ _).resolved he
  loop c hc := by cases hc
  limit c hc := by cases hc; rfl
  dynamic hs ht := .of_target? hs.built ht
  spaces hs hr := .of_resolve? hs.built hr
  body hs he hm := by
    obtain ⟨g, target, rfl, hg, -⟩ := hs.application he hm
    exact fun _ _ => hg

namespace Engine

theorem run_resolved {e : Engine} {rule : String} {input : Input} {args : List Value} {toEnd : Bool}
    {h : Halt} (hr : e.registry.OfStandard) (hg : Grammar.Built g)
    (ht : (g.target? rule).isSome = true) (he : e.run g rule input args toEnd = .error h) :
    (e.causeOfHalt h).isUnresolved = false := by
  obtain ⟨target, ht⟩ := Option.isSome_iff_exists.1 ht
  have ha := (safety_of_references hr).run ht (.of_target? hg ht) he
  cases h with
  | exhausted => rfl
  | fatal c => exact ha c rfl

/-- **No name goes unresolved.** A match of a built grammar, from a name that means something to it
and with standard functions, never ends in an error that a rule or a grammar is unknown; nor does a
match of the whole input or the translation of a tree. -/
theorem no_unresolved_reference (e : Engine) (g : Grammar) (rule : String)
    (hr : e.registry.OfStandard) (hg : Grammar.Built g) (ht : (g.target? rule).isSome = true) :
    (∀ input args c, e.matchRule g rule input args = .error c → c.isUnresolved = false) ∧
      (∀ input c, e.matchAll g rule input = .error c → c.isUnresolved = false) ∧
      ∀ root err, e.translate root g rule = .error err → err.cause.isUnresolved = false := by
  refine ⟨fun input args c hc => ?_, fun input c hc => ?_, fun root err hc => ?_⟩
  · unfold matchRule at hc
    cases hrun : e.run g rule input args false with
    | error h => rw [hrun] at hc; cases hc; exact run_resolved hr hg ht hrun
    | ok outcome => rw [hrun] at hc; cases hc
  · unfold matchAll at hc
    cases hrun : e.run g rule input [] true with
    | error h => rw [hrun] at hc; cases hc; exact run_resolved hr hg ht hrun
    | ok outcome =>
      rw [hrun] at hc
      cases outcome with
      | success v cursor => cases hc
      | failure f => cases hc; rfl
  · unfold translate at hc
    cases hrun : e.run g rule (.ofList [root]) [] true with
    | error h => rw [hrun] at hc; cases hc; exact run_resolved hr hg ht hrun
    | ok outcome =>
      rw [hrun] at hc
      cases outcome with
      | success v cursor => cases hc
      | failure f => cases hc; rfl

/-- A grammar to inherit from: `start = item item` and `item = 'a'`. -/
def pairs : Draft :=
  { name := "Pairs"
    rules := [
      { name := "start", body := .sequence [.apply "item" [], .apply "item" []] },
      { name := "item", body := .literal "a" }] }

/-- A grammar to import: `word = letter`. -/
def words : Draft :=
  { name := "Words", rules := [{ name := "word", body := .apply "letter" [] }] }

/-- An heir of `pairs` that overrides `item` by `^item / Words.word / apply('digit')`. -/
def heirs : Draft :=
  { name := "Heirs", parent := some pairs.freeze, imports := [words.freeze]
    rules := [
      { name := "item"
        body := .choice [.super "item" [], .foreign "Words" "word" [],
          .apply "apply" [.literal (.string "digit")]] }] }

/-- Through all kinds of applications at once. -/
theorem no_unresolved_reference_heirs :
    (Grammar.Built heirs.freeze ∧ (heirs.freeze.target? "start").isSome = true) ∧
      ∀ input args c, ({} : Engine).matchRule heirs.freeze "start" input args = .error c →
        c.isUnresolved = false := by
  have hpairs : Grammar.Built pairs.freeze :=
    .freeze (fun p hp => by cases hp) (fun i hi => by cases hi) (by decide +kernel)
  have hwords : Grammar.Built words.freeze :=
    .freeze (fun p hp => by cases hp) (fun i hi => by cases hi) (by decide +kernel)
  have hheirs : Grammar.Built heirs.freeze := by
    refine .freeze (fun p hp => ?_) (fun i hi => ?_) (by decide +kernel)
    · cases hp; exact hpairs
    · cases List.mem_singleton.1 hi; exact hwords
  have ht : (heirs.freeze.target? "start").isSome = true := by decide +kernel
  exact ⟨⟨hheirs, ht⟩,
    (no_unresolved_reference {} heirs.freeze "start" Registry.standard_ofStandard hheirs ht).1⟩

end Engine

end Packrat
