import Packrat.Proofs.Rendering
import Packrat.Proofs.Renaming
import Packrat.Proofs.Wrapping

/-!
# Grammars that differ in wrappers

Two grammars may read alike but for wrappers of one element in the bodies of their rules, and so may
the grammars that they rest on. They match alike, then, as far as values, positions and errors go.
What they report of a failure may differ, since a sequence is where the guards in it fail. So the
matches are compared with accounts that note nothing, which does not change what they come to.

It has to be the same grammar in the same places: a grammar that occurs twice in what one of the two
rests on occurs twice in what the other rests on. Otherwise an application that one match finds in
its table is carried out anew in the other.

* `Outcome.result`: an outcome without the contents of a failure.
* `Engine.matchRule_result`: no account of failures has a say in the result.
* `Grammar.Paired`: grammars at the same place in what two grammars rest on.
* `Grammar.Rewrapped`: grammars that read alike but for wrappers.
* `Rewrapped.rewording`: the rules of one put for those of the other.
* `Engine.matchRule_rewrapped`: they match alike.
-/

namespace Packrat

/-! ### Accounts have no say -/

/-- An outcome without the contents of a failure. -/
def Outcome.result : Outcome → Option (Value × Cursor)
  | .success v c => some (v, c)
  | .failure _ => none

/-- The value of an answer and where it ends. -/
def Answer.result {φ : Type} (input : Input) (r : Answer φ) : Option (Value × Cursor) :=
  r.1.map fun v => (v, { input, pos := r.2.pos })

variable {φ ψ : Type} [Account φ] [Account ψ]

/-- Any account may be put for any other. -/
def Rendering.anything : Rendering φ ψ where
  accounts _ _ := True
  empty := trivial
  miss := trivial
  append _ _ := trivial
  rule _ := trivial
  negation _ := trivial

omit [Account φ] [Account ψ] in
/-- Answers with the same value that end at the same position have the same result. -/
theorem map_result_of_follows {like : State φ → State ψ → Prop}
    (hlike : ∀ s t, like s t → s.pos = t.pos) {m : Except Halt (Answer φ)}
    {n : Except Halt (Answer ψ)} (h : Follows (fun _ => False) like m n) (input : Input) :
    m.map (Answer.result input) = n.map (Answer.result input) := by
  cases n with
  | error e => rw [h.resolve_left id]; rfl
  | ok r =>
    obtain ⟨s, rfl, hl⟩ := h
    simp only [Except.map, Answer.result, hlike s r.2 hl]

namespace Engine

theorem result_conclude (input : Input) (r : Answer Furthest) :
    (conclude input false r).result = r.result input := by
  obtain ⟨v, st⟩ := r
  cases v <;> rfl

variable (φ) in
/-- **No account of failures has a say in the result** of a match: it is what a match comes to that
keeps any other account. -/
theorem matchRule_result (e : Engine) (g : Grammar) (rule : String) (input : Input)
    (args : List Value) :
    (e.matchRule g rule input args).map Outcome.result =
      ((e.start g rule input args : Except Halt (Answer φ)).map (Answer.result input)).mapError
        e.causeOfHalt := by
  have hsame := map_result_of_follows (fun _ _ h => h.1)
    (e.start_renders (Rendering.anything (φ := Furthest) (ψ := φ)) g rule input args) input
  rw [← hsame, matchRule, run_eq]
  cases e.start (φ := Furthest) g rule input args with
  | error h => rfl
  | ok r => exact congrArg Except.ok (result_conclude input r)

end Engine

/-! ### Grammars side by side -/

/-- A rule without wrappers of one element. -/
def Rule.stripped (r : Rule) : Rule := { r with body := r.body.stripped }

namespace Grammar

/-- **Grammars at the same place** in what two grammars rest on: these themselves, parents of such
grammars, and imports of such grammars that have the same name. -/
inductive Paired (g g' : Grammar) : Grammar → Grammar → Prop
  | self : Paired g g' g g'
  | parent {a a' p p' : Grammar} : Paired g g' a a' → a.parent = some p → a'.parent = some p' →
      Paired g g' p p'
  | imported {a a' i i' : Grammar} {name : String} : Paired g g' a a' →
      Roster.get? Grammar.name name a.imports = some i →
        Roster.get? Grammar.name name a'.imports = some i' → Paired g g' i i'

/-- **Grammars that read alike but for wrappers**, and so do the grammars that they rest on, where
the same grammars are in the same places. -/
structure Rewrapped (g g' : Grammar) : Prop where
  name {a a' : Grammar} : Paired g g' a a' → a.name = a'.name
  rules {a a' : Grammar} : Paired g g' a a' →
    a.rules.map Rule.stripped = a'.rules.map Rule.stripped
  parent {a a' : Grammar} : Paired g g' a a' → a.parent.isSome = a'.parent.isSome
  imports {a a' : Grammar} : Paired g g' a a' →
    a.imports.map Grammar.name = a'.imports.map Grammar.name
  sharing {a a' b b' : Grammar} : Paired g g' a a' → Paired g g' b b' → (a = b ↔ a' = b')

/-- What stands at the place next to that of two grammars. -/
def beside (x : Grammar × Grammar) : List (Grammar × Grammar) :=
  (match x.1.parent, x.2.parent with
    | some p, some p' => [(p, p')]
    | _, _ => []) ++
  x.1.imports.filterMap fun i =>
    (Roster.get? Grammar.name i.name x.2.imports).map fun i' => (i, i')

/-- A list that holds what is beside its members holds all that is paired. -/
theorem Paired.mem {g g' a a' : Grammar} {pairs : List (Grammar × Grammar)} (hs : (g, g') ∈ pairs)
    (hn : ∀ x ∈ pairs, ∀ y ∈ beside x, y ∈ pairs) (h : Paired g g' a a') : (a, a') ∈ pairs := by
  induction h with
  | self => exact hs
  | parent _ hp hp' ih =>
    refine hn _ ih _ (List.mem_append_left _ ?_)
    simp only [hp, hp', List.mem_singleton]
  | @imported a a' i i' name _ hi hi' ih =>
    have hname : i.name = name := by simpa using List.find?_some hi
    refine hn _ ih _ (List.mem_append_right _ (List.mem_filterMap.2 ⟨i, ?_, ?_⟩))
    · exact List.mem_of_find?_eq_some hi
    · simp only [hname, hi', Option.map_some]

/-- Rosters with the same names have an entry of a name or have none. -/
theorem rel_get? {is js : List Grammar} (h : is.map Grammar.name = js.map Grammar.name)
    (name : String) :
    Option.Rel (fun _ _ => True) (Roster.get? Grammar.name name is)
      (Roster.get? Grammar.name name js) := by
  induction is generalizing js with
  | nil =>
    cases js with
    | nil => exact .none
    | cons j js => cases h
  | cons i is ih =>
    cases js with
    | nil => cases h
    | cons j js =>
      obtain ⟨hij, hrest⟩ := List.cons.inj h
      simp only [Roster.get?, List.find?_cons, hij]
      split
      · exact .some trivial
      · exact ih hrest

namespace Rewrapped

variable {g g' a a' d d' o o' : Grammar}

/-- What is applied at the same place: rules of the same name, or the same built-in rule. -/
inductive Pairs (g g' : Grammar) : Target → Target → Prop
  | rule {o o' : Grammar} {r r' : Rule} : Paired g g' o o' → o.rule? r.name = some r →
      o'.rule? r.name = some r' → Pairs g g' (.rule o r) (.rule o' r')
  | builtin (b : Builtin) : Pairs g g' (.builtin b) (.builtin b)

theorem map_rule? (H : Rewrapped g g') (h : Paired g g' a a') (name : String) :
    (a.rule? name).map Rule.stripped = (a'.rule? name).map Rule.stripped := by
  unfold rule?
  have hname (r : Rule) : r.stripped.name = r.name := rfl
  rw [← Roster.get?_map hname, ← Roster.get?_map hname, H.rules h]

/-- Rules of the same name differ in wrappers only. -/
theorem stripped_eq (H : Rewrapped g g') {r r' : Rule} {name : String} (h : Paired g g' o o')
    (hr : o.rule? name = some r) (hr' : o'.rule? name = some r') : r.stripped = r'.stripped := by
  have hmap := H.map_rule? h name
  rw [hr, hr'] at hmap
  exact Option.some.inj hmap

/-- Grammars at the same place have parents at the same place, or have none. -/
theorem rel_parent (H : Rewrapped g g') (h : Paired g g' a a') :
    Option.Rel (Paired g g') a.parent a'.parent := by
  have hparent := H.parent h
  cases hp : a.parent with
  | none =>
    cases hp' : a'.parent with
    | none => exact .none
    | some p' => rw [hp, hp'] at hparent; cases hparent
  | some p =>
    cases hp' : a'.parent with
    | none => rw [hp, hp'] at hparent; cases hparent
    | some p' => exact .some (.parent h hp hp')

/-- Grammars at the same place resolve names to rules at the same place. -/
theorem resolve? (H : Rewrapped g g') (name : String) : ∀ (a : Grammar) {a' : Grammar},
    Paired g g' a a' →
      Option.Rel (fun x y => Pairs g g' (.rule x.1 x.2) (.rule y.1 y.2)) (a.resolve? name)
        (a'.resolve? name)
  | ⟨n, parent, is, rules, stamp⟩, a', h => by
    have hmap := H.map_rule? h name
    have hparent := H.rel_parent h
    rw [resolve?_eq, resolve?_eq]
    cases hr : rule? ⟨n, parent, is, rules, stamp⟩ name with
    | some r =>
      cases hr' : a'.rule? name with
      | none => rw [hr, hr'] at hmap; cases hmap
      | some r' =>
        have hname := rule?_name hr
        exact .some (.rule h (hname ▸ hr) (hname ▸ hr'))
    | none =>
      cases hr' : a'.rule? name with
      | some r' => rw [hr, hr'] at hmap; cases hmap
      | none =>
        generalize a'.parent = parent' at hparent ⊢
        cases parent with
        | none =>
          cases hparent
          exact .none
        | some p =>
          cases hparent with
          | some hp => exact resolve? H name p hp
termination_by structural a => a

theorem import? (H : Rewrapped g g') (name : String) : ∀ (a : Grammar) {a' : Grammar},
    Paired g g' a a' → Option.Rel (Paired g g') (a.import? name) (a'.import? name)
  | ⟨n, parent, is, rules, stamp⟩, a', h => by
    have hrel := rel_get? (H.imports h) name
    have hparent := H.rel_parent h
    rw [import?_eq, import?_eq]
    cases hi : Roster.get? Grammar.name name
        (Grammar.imports ⟨n, parent, is, rules, stamp⟩) with
    | some i =>
      cases hi' : Roster.get? Grammar.name name a'.imports with
      | none => rw [hi, hi'] at hrel; cases hrel
      | some i' => exact .some (.imported h hi hi')
    | none =>
      cases hi' : Roster.get? Grammar.name name a'.imports with
      | some i' => rw [hi, hi'] at hrel; cases hrel
      | none =>
        generalize a'.parent = parent' at hparent ⊢
        cases parent with
        | none =>
          cases hparent
          exact .none
        | some p =>
          cases hparent with
          | some hp => exact import? H name p hp
termination_by structural a => a

/-- **A name means the same to grammars at the same place.** -/
theorem target? (H : Rewrapped g g') (h : Paired g g' a a') (name : String) :
    Option.Rel (Pairs g g') (a.target? name) (a'.target? name) := by
  unfold Grammar.target?
  generalize a.resolve? name = x, a'.resolve? name = y, H.resolve? name a h = hxy
  cases hxy with
  | some hp => exact .some hp
  | none =>
    cases Builtin.ofName? name with
    | none => exact .none
    | some b => exact .some (.builtin b)

/-! ### Rules put for one another -/

open Classical in
/-- The grammar at the same place in the second of two grammars. -/
noncomputable def counterpart (g g' a : Grammar) : Grammar :=
  if h : ∃ a', Paired g g' a a' then h.choose else a

/-- The rule of the same name in the grammar at the same place. -/
noncomputable def ruleFor (g g' o : Grammar) (r : Rule) : Rule :=
  ((counterpart g g' o).rule? r.name).getD r

/-- What a match of the first of two grammars may come to. -/
def Permits (g g' d : Grammar) (t : Target) : Prop :=
  (∃ d', Paired g g' d d') ∧ ∃ t', Pairs g g' t t'

theorem counterpart_eq (H : Rewrapped g g') (h : Paired g g' a a') : counterpart g g' a = a' := by
  have hex : ∃ a', Paired g g' a a' := ⟨a', h⟩
  unfold counterpart
  rw [dif_pos hex]
  exact (H.sharing hex.choose_spec h).1 rfl

theorem reworded_eq (H : Rewrapped g g') {t t' : Target} (h : Pairs g g' t t') :
    t.reworded (counterpart g g') (ruleFor g g') = t' := by
  cases h with
  | builtin b => rfl
  | rule ho hr hr' =>
    simp only [Target.reworded, ruleFor, H.counterpart_eq ho, hr', Option.getD_some]

/-- **An application means the same** in rules at the same place. -/
theorem agreeing (H : Rewrapped g g') (hd : Paired g g' d d') (ho : Paired g g' o o')
    (es : List Expr) :
    Agreeing (counterpart g g') (ruleFor g g') (Permits g g') d o es := by
  intro e _ as meaning hm
  have hname : d.name = d'.name := H.name hd
  -- what means a rule or a built-in rule does so at the same place
  have hok {c c' : Grammar} {t t' : Target} (hc : Paired g g' c c') (ht : Pairs g g' t t') :
      (Except.ok (c', t') : Except Cause _) =
          Meaning.reworded (counterpart g g') (ruleFor g g') (.ok (c, t)) ∧
        ∀ x target, (Except.ok (c, t) : Except Cause _) = .ok (x, target) →
          Permits g g' x target := by
    refine ⟨?_, fun x target hx => ?_⟩
    · simp only [Meaning.reworded, Except.map, H.counterpart_eq hc, H.reworded_eq ht]
    · cases hx
      exact ⟨⟨_, hc⟩, _, ht⟩
  rw [H.counterpart_eq hd, H.counterpart_eq ho]
  cases e with
  | apply rule args =>
    simp only [Expr.application?, Option.some.injEq, Prod.mk.injEq] at hm ⊢
    obtain ⟨rfl, rfl⟩ := hm
    generalize d.target? rule = x, d'.target? rule = y, H.target? hd rule = hxy
    cases hxy with
    | none => exact ⟨⟨rfl, by rw [hname]; rfl⟩, fun _ _ hx => by cases hx⟩
    | some ht => exact ⟨⟨rfl, (hok hd ht).1⟩, (hok hd ht).2⟩
  | super rule args =>
    simp only [Expr.application?, Option.some.injEq, Prod.mk.injEq] at hm ⊢
    obtain ⟨rfl, rfl⟩ := hm
    have hrel : Option.Rel (Pairs g g') (o.parent.bind fun p => p.target? rule)
        (o'.parent.bind fun p => p.target? rule) := by
      generalize o.parent = x, o'.parent = y, H.rel_parent ho = hxy
      cases hxy with
      | none => exact .none
      | some hp => exact H.target? hp rule
    generalize (o.parent.bind fun p => p.target? rule) = x,
      (o'.parent.bind fun p => p.target? rule) = y at hrel ⊢
    cases hrel with
    | none => exact ⟨⟨rfl, by rw [H.name ho]; rfl⟩, fun _ _ hx => by cases hx⟩
    | some ht => exact ⟨⟨rfl, (hok hd ht).1⟩, (hok hd ht).2⟩
  | foreign grammar rule args =>
    simp only [Expr.application?, Option.some.injEq, Prod.mk.injEq] at hm ⊢
    obtain ⟨rfl, rfl⟩ := hm
    generalize o.import? grammar = x, o'.import? grammar = y, H.import? grammar o ho = hxy
    cases hxy with
    | none => exact ⟨⟨rfl, rfl⟩, fun _ _ hx => by cases hx⟩
    | @some i i' hi =>
      dsimp only
      generalize i.target? rule = x, i'.target? rule = y, H.target? hi rule = hxy
      cases hxy with
      | none => exact ⟨⟨rfl, by rw [H.name hi]; rfl⟩, fun _ _ hx => by cases hx⟩
      | some ht => exact ⟨⟨rfl, (hok hi ht).1⟩, (hok hi ht).2⟩
  | _ => simp [Expr.application?] at hm

/-- **The rules of one grammar may be put for those of the other.** -/
theorem rewording (H : Rewrapped g g') :
    Rewording (counterpart g g') (ruleFor g g') (Permits g g') where
  apart := by
    intro d₁ d₂ o₁ o₂ r₁ r₂ ⟨⟨_, hd₁⟩, _, h₁⟩ ⟨⟨_, hd₂⟩, _, h₂⟩ hd ho
    cases h₁ with
    | rule ho₁ _ _ =>
      cases h₂ with
      | rule ho₂ _ _ =>
        rw [H.counterpart_eq hd₁, H.counterpart_eq hd₂] at hd
        rw [H.counterpart_eq ho₁, H.counterpart_eq ho₂] at ho
        exact ⟨(H.sharing hd₁ hd₂).2 hd, (H.sharing ho₁ ho₂).2 ho⟩
  rule := by
    rintro d o r ⟨-, t', h⟩
    cases h with
    | @rule _ o' _ r' ho hr hr' =>
      have hs := H.stripped_eq ho hr hr'
      have hrule : ruleFor g g' o r = r' := by
        simp only [ruleFor, H.counterpart_eq ho, hr', Option.getD_some]
      rw [hrule]
      exact ⟨(congrArg Rule.name hs).symm, (congrArg Rule.params hs).symm⟩
  dynamic := by
    rintro d name ⟨⟨d', hd⟩, -⟩
    rw [H.counterpart_eq hd]
    generalize d.target? name = x, d'.target? name = y, H.target? hd name = hxy
    cases hxy with
    | none => exact ⟨rfl, fun _ hx => by cases hx⟩
    | some ht =>
      refine ⟨congrArg some (H.reworded_eq ht).symm, fun _ hx => ?_⟩
      cases hx
      exact ⟨⟨d', hd⟩, _, ht⟩
  spaces := by
    rintro d ⟨⟨d', hd⟩, -⟩
    rw [H.counterpart_eq hd]
    generalize d.resolve? "spaces" = x, d'.resolve? "spaces" = y, H.resolve? "spaces" d hd = hxy
    cases hxy with
    | none => exact ⟨rfl, fun _ _ hx => by cases hx⟩
    | @some x y ht =>
      have heq := H.reworded_eq ht
      simp only [Target.reworded, Target.rule.injEq] at heq
      refine ⟨congrArg some (Prod.ext heq.1.symm heq.2.symm), fun _ _ hx => ?_⟩
      cases hx
      exact ⟨⟨d', hd⟩, _, ht⟩
  body := by
    rintro d o r ⟨⟨d', hd⟩, t', h⟩
    cases h with
    | rule ho _ _ => exact H.agreeing hd ho _

/-- **Bodies that differ in wrappers only do the same**, as far as values and positions go. -/
theorem runBody_ruleFor (H : Rewrapped g g') {apply : Applier Unit} (ha : apply.Retreats)
    {r : Rule} (hp : Permits g g' d (.rule o r)) (registry : Registry) (f : Frame)
    (d' o' : Grammar) (args : List Value) :
    runBody apply registry f d' o' (ruleFor g g' o r) args =
      runBody apply registry f d' o' r args := by
  obtain ⟨-, t', h⟩ := hp
  have heq := H.reworded_eq h
  cases h with
  | @rule _ _ _ r' ho hr hr' =>
    obtain ⟨-, hrule⟩ : _ ∧ ruleFor g g' o r = r' := by simpa [Target.reworded] using heq
    have hs := H.stripped_eq ho hr hr'
    have hparams : r.params = r'.params := by simpa [Rule.stripped] using congrArg Rule.params hs
    have hbody : r.body.stripped = r'.body.stripped := congrArg Rule.body hs
    rw [hrule]
    funext st
    unfold runBody
    rw [← Expr.eval_stripped ha r'.body, ← Expr.eval_stripped ha r.body, hbody, hparams]

end Rewrapped

end Grammar

namespace Engine

open Grammar (Paired Rewrapped)

/-- **Wrappers of one element do not change what a match comes to.** Grammars that read alike but
for wrappers match alike under all options: to the same value and cursor, both to a failure, or to
the same error. And no account of failures has a say in that. -/
theorem matchRule_rewrapped (e : Engine) {g g' : Grammar} (H : Rewrapped g g') (rule : String)
    (input : Input) (args : List Value) :
    (e.matchRule g rule input args).map Outcome.result =
        (e.matchRule g' rule input args).map Outcome.result ∧
      ∀ (φ : Type) [Account φ], (e.matchRule g rule input args).map Outcome.result =
        ((e.start g rule input args : Except Halt (Answer φ)).map (Answer.result input)).mapError
          e.causeOfHalt := by
  refine ⟨?_, fun φ _ => e.matchRule_result φ g rule input args⟩
  have hself : Rewrapped.counterpart g g' g = g' := H.counterpart_eq .self
  have hretreats := applyDepth_retreats (φ := Unit) e.options.memoize e.registry e.options.maxDepth
  have hstart : Follows (fun _ => False) (fun s t : State Unit => s.pos = t.pos)
      (e.start g rule input args) (e.start g' rule input args) := by
    have hrel := H.target? .self rule
    cases ht : g.target? rule with
    | none =>
      cases ht' : g'.target? rule with
      | some t' => rw [ht, ht'] at hrel; cases hrel
      | none =>
        unfold start applyName
        rw [ht, ht', H.name .self]
        exact .inr rfl
    | some t =>
      cases ht' : g'.target? rule with
      | none => rw [ht, ht'] at hrel; cases hrel
      | some t' =>
        rw [ht, ht'] at hrel
        cases hrel with
        | some hp =>
          have hrun := H.rewording.start e
            (fun depth f _ _ _ args hp => H.runBody_ruleFor (hretreats depth) hp _ f _ _ args) ht
            (by rw [hself, ht', H.reworded_eq hp]) ⟨⟨_, .self⟩, _, hp⟩ input args
          rw [hself] at hrun
          exact hrun.mono fun _ _ h => h.1
  rw [e.matchRule_result Unit, e.matchRule_result Unit,
    map_result_of_follows (fun _ _ h => h) hstart]

/-- A left-recursive grammar of sums, `sum = x:sum '+' atom+ / atom` and `atom = !'+' any`, with
some parts put between wrappers. -/
def charSums (item alternative : Expr → Expr) : Grammar :=
  Draft.freeze
    { name := "CharSums"
      rules := [
        { name := "sum"
          body := .choice [.sequence [.bind "x" (item (.app "sum")), alternative (.literal "+"),
            .many1 (item (.app "atom"))], .app "atom"] },
        { name := "atom", body := .sequence [.not (alternative (.literal "+")), .any] }] }

/-- An heir of `charSums` that imports it as well and has digits for atoms. -/
def digitSums (item alternative : Expr → Expr) (stamp : Nat) : Grammar :=
  Draft.freeze
    { name := "DigitSums", parent := some (charSums item alternative)
      imports := [charSums item alternative], stamp
      rules := [{ name := "atom", body := item (alternative (.range '0' '9')) }] }

/-- Sums of digits without wrappers. -/
def plainSums : Grammar := digitSums id id 1

/-- Sums of digits with wrappers in many places, built at another time. -/
def wrappedSums : Grammar := digitSums (fun e => .sequence [e]) (fun e => .choice [e]) 2

/-- Each of the two rests on one other grammar, which is both its parent and its import. -/
def pairedSums : List (Grammar × Grammar) :=
  [(plainSums, wrappedSums),
    (charSums id id, charSums (fun e => .sequence [e]) (fun e => .choice [e]))]

/-- Sums of digits match alike with wrappers and without. -/
theorem matchRule_rewrapped_sums :
    Rewrapped plainSums wrappedSums ∧
      (({} : Engine).matchRule plainSums "sum" (.ofString "1+23") []).map Outcome.result =
        (({} : Engine).matchRule wrappedSums "sum" (.ofString "1+23") []).map Outcome.result := by
  have hmem {a a' : Grammar} (h : Paired plainSums wrappedSums a a') : (a, a') ∈ pairedSums :=
    h.mem (by decide +kernel) (by decide +kernel)
  have hread : ∀ x ∈ pairedSums, x.1.name = x.2.name ∧
      x.1.rules.map Rule.stripped = x.2.rules.map Rule.stripped ∧
      x.1.parent.isSome = x.2.parent.isSome ∧
      x.1.imports.map Grammar.name = x.2.imports.map Grammar.name := by decide +kernel
  have hshare : ∀ x ∈ pairedSums, ∀ y ∈ pairedSums, (x.1 = y.1 ↔ x.2 = y.2) := by decide +kernel
  have H : Rewrapped plainSums wrappedSums :=
    { name := fun h => (hread _ (hmem h)).1
      rules := fun h => (hread _ (hmem h)).2.1
      parent := fun h => (hread _ (hmem h)).2.2.1
      imports := fun h => (hread _ (hmem h)).2.2.2
      sharing := fun h h' => hshare _ (hmem h) _ (hmem h') }
  exact ⟨H, (matchRule_rewrapped {} H "sum" (.ofString "1+23") []).1⟩

end Engine

end Packrat
