import Packrat.Proofs.Counts
import Packrat.Proofs.Renaming

/-!
# Overriding is local

An heir may override some rules of its parent. A match that never comes to apply an overridden name
goes on behalf of the heir as it goes on behalf of the parent. The two look up every name through
different lines and file every application under different grammars; what keeps them in step is that
neither grammar can turn up in the other's match by an import, since what a grammar imports is
smaller than the grammar itself.

* `Grammar.leads`, `Grammar.Reaches`: the names that a match may come to apply, and what they mean.
* `Untouched`: what a match on behalf of an heir may come to, if it meets no overridden name.
* `Spares.replaces`: then the parent may be put for the heir.
* `Engine.matchRule_heir`: so the two matches come to the same.
-/

namespace Packrat

variable {g o p d heir base i : Grammar} {name start : String} {target : Target}

/-! ### Sizes -/

namespace Grammar

theorem sizeOf_parent_lt (h : g.parent = some p) : sizeOf p < sizeOf g := by
  obtain ⟨n, parent, is, rules, stamp⟩ := g
  cases h
  simp only [mk.sizeOf_spec, Option.some.sizeOf_spec]
  omega

theorem Descends.sizeOf_le (h : Descends g o) : sizeOf o ≤ sizeOf g := by
  induction h with
  | self => exact Nat.le_refl _
  | heir hp _ ih => exact Nat.le_of_lt (Nat.lt_of_le_of_lt ih (sizeOf_parent_lt hp))

/-- What a grammar imports, itself or through an ancestor, is smaller than the grammar. -/
theorem sizeOf_import?_lt (name : String) : ∀ (g : Grammar) {i : Grammar},
    g.import? name = some i → sizeOf i < sizeOf g
  | ⟨n, parent, is, rules, stamp⟩, i, h => by
    rw [import?_eq] at h
    split at h
    next j hj =>
      cases h
      have hlt : sizeOf i < sizeOf is := List.sizeOf_lt_of_mem (List.mem_of_find?_eq_some hj)
      simp only [mk.sizeOf_spec]
      omega
    next =>
      cases parent with
      | none => cases h
      | some p => exact Nat.lt_trans (sizeOf_import?_lt name p h) (sizeOf_parent_lt rfl)
termination_by structural g => g

/-- A name that an heir does not define is resolved by its parent. -/
theorem resolve?_of_not_local (hp : heir.parent = some base) (hn : heir.rule? name = none) :
    heir.resolve? name = base.resolve? name := by
  rw [resolve?_eq, hn, hp]
  rfl

/-- A name that an heir does not define means what it means to its parent. -/
theorem target?_of_not_local (hp : heir.parent = some base) (hn : heir.rule? name = none) :
    heir.target? name = base.target? name := by
  unfold target?
  rw [resolve?_of_not_local hp hn]

/-- `spaces` always means something. -/
theorem exists_target?_spaces (g : Grammar) : ∃ target, g.target? "spaces" = some target := by
  unfold target?
  cases g.resolve? "spaces" with
  | none => exact ⟨.builtin .spaces, rfl⟩
  | some or => exact ⟨.rule or.1 or.2, rfl⟩

end Grammar

theorem Target.InLine.sizeOf_le {r : Rule} (h : (Target.rule o r).InLine g) :
    sizeOf o ≤ sizeOf g :=
  Grammar.Descends.sizeOf_le h

/-! ### Names that may come up -/

/-- **The names that are applied next** on behalf of `g`, with what they mean: those in the body of
a rule, those of the parent's versions included, and `spaces` where a token is matched. A rule of an
imported grammar is applied on behalf of that grammar, so it is left out. -/
def Grammar.leads (g : Grammar) : Target → List (String × Target)
  | .rule o r => r.body.subexprs.filterMap fun
      | .apply name _ => (g.target? name).map fun t => (name, t)
      | .super name _ => (o.parent.bind fun p => p.target? name).map fun t => (name, t)
      | _ => none
  | .builtin .token => ((g.target? "spaces").map fun t => ("spaces", t)).toList
  | .builtin _ => []

/-- **The names that a match may come to apply** on behalf of `g`, starting with `start`, and what
they mean. -/
inductive Grammar.Reaches (g : Grammar) (start : String) : String → Target → Prop
  | start {target : Target} : g.target? start = some target → Reaches g start start target
  | next {name other : String} {target reached : Target} : Reaches g start name target →
      (other, reached) ∈ g.leads target → Reaches g start other reached

namespace Grammar.Reaches

/-- What holds at the start and is handed on holds of all that is reached. -/
theorem mem {steps : List (String × Target)}
    (hs : ∀ target, g.target? start = some target → (start, target) ∈ steps)
    (hn : ∀ step ∈ steps, ∀ other ∈ g.leads step.2, other ∈ steps)
    (h : g.Reaches start name target) : (name, target) ∈ steps := by
  induction h with
  | start ht => exact hs _ ht
  | next _ hm ih => exact hn _ ih _ hm

variable {r : Rule} {args : List Action} {other : String}

theorem apply (h : g.Reaches start name (.rule o r)) (he : .apply other args ∈ r.body.subexprs)
    (ht : g.target? other = some target) : g.Reaches start other target :=
  h.next (List.mem_filterMap.2 ⟨_, he, by simp only [ht, Option.map_some]⟩)

theorem super (h : g.Reaches start name (.rule o r)) (he : .super other args ∈ r.body.subexprs)
    (ht : (o.parent.bind fun p => p.target? other) = some target) :
    g.Reaches start other target :=
  h.next (List.mem_filterMap.2 ⟨_, he, by simp only [ht, Option.map_some]⟩)

theorem spaces (h : g.Reaches start name (.builtin .token))
    (ht : g.target? "spaces" = some target) : g.Reaches start "spaces" target :=
  h.next (by simp [leads, ht])

/-- All that is reached may be applied, if the grammar was built. -/
theorem sound (hb : Built g) (h : g.Reaches start name target) : Sound g target := by
  induction h with
  | start ht => exact .of_target? hb ht
  | @next name other target reached _ hm ih =>
    cases target with
    | builtin b =>
      cases b with
      | token =>
        obtain ⟨t, ht, he⟩ := Option.map_eq_some_iff.1 (Option.mem_toList.1 hm)
        cases he
        exact .of_target? hb ht
      | _ => cases hm
    | rule o r =>
      obtain ⟨e, he, hm⟩ := List.mem_filterMap.1 hm
      cases e with
      | apply rule args =>
        obtain ⟨t, ht, hpair⟩ := Option.map_eq_some_iff.1 hm
        cases hpair
        exact .of_target? hb ht
      | super rule args =>
        obtain ⟨t, ht, hpair⟩ := Option.map_eq_some_iff.1 hm
        cases hpair
        obtain ⟨p, hp, ht⟩ := Option.bind_eq_some_iff.1 ht
        have hline : Descends g p := Descends.trans ih.inLine (.heir hp (.self p))
        exact ⟨hb, (target?_inLine ht).of_descends hline, target?_grounded ht⟩
      | _ => cases hm

end Grammar.Reaches

/-! ### Putting the parent for the heir -/

/-- What an application means belongs to the line of the grammar in force from there on. That is the
same grammar, unless the application is foreign; then it is one that is imported. -/
theorem Expr.application?_inLine {e : Expr} {as : List Action} (hd : Grammar.Descends d o)
    (h : e.application? d o = some (as, .ok (g, target))) :
    target.InLine g ∧
      ((g = d ∧ ∀ i r args, e ≠ .foreign i r args) ∨ sizeOf g < sizeOf o) := by
  cases e with
  | apply rule args =>
    simp only [application?, Option.some.injEq, Prod.mk.injEq] at h
    split at h
    next ht => cases h.2; exact ⟨Grammar.target?_inLine ht, .inl ⟨rfl, by simp⟩⟩
    next => cases h.2
  | super rule args =>
    simp only [application?, Option.some.injEq, Prod.mk.injEq] at h
    split at h
    next ht =>
      cases h.2
      obtain ⟨p, hp, ht⟩ := Option.bind_eq_some_iff.1 ht
      have hline := hd.trans (.heir hp (.self p))
      exact ⟨(Grammar.target?_inLine ht).of_descends hline, .inl ⟨rfl, by simp⟩⟩
    next => cases h.2
  | foreign grammar rule args =>
    simp only [application?, Option.some.injEq, Prod.mk.injEq] at h
    split at h
    next i hi =>
      split at h
      next ht =>
        cases h.2
        exact ⟨Grammar.target?_inLine ht, .inr (Grammar.sizeOf_import?_lt grammar o hi)⟩
      next => cases h.2
    next => cases h.2
  | _ => simp [application?] at h

/-- The parent put for the heir, and every other grammar for itself. -/
def Grammar.inPlaceOf (base heir : Grammar) (g : Grammar) : Grammar := if g = heir then base else g

/-- **What a match on behalf of an heir may come to**, if it meets no name that the heir overrides:
on behalf of the heir what its parent reaches, and anything on behalf of grammars smaller than the
parent. -/
inductive Untouched (heir base : Grammar) (start : String) : Grammar → Target → Prop
  | here {name : String} {target : Target} : base.Reaches start name target →
      Untouched heir base start heir target
  | away {g : Grammar} {target : Target} : sizeOf g < sizeOf base → target.InLine g →
      Untouched heir base start g target

/-- **An heir that spares a rule of its parent**: it overrides no name that a match comes to which
starts with the rule, and none of these is looked up at run time. -/
structure Spares (heir base : Grammar) (start : String) : Prop where
  built : Grammar.Built heir
  parent : heir.parent = some base
  kept {name : String} {target : Target} : base.Reaches start name target → heir.rule? name = none
  fixed {name : String} : ¬ base.Reaches start name (.builtin .apply)

namespace Spares

open Grammar (inPlaceOf)

theorem inPlaceOf_heir : inPlaceOf base heir heir = base := if_pos rfl

/-- Grammars up to the size of the parent stand for themselves. -/
theorem inPlaceOf_eq (S : Spares heir base start) (h : sizeOf g ≤ sizeOf base) :
    inPlaceOf base heir g = g := by
  have hlt := Grammar.sizeOf_parent_lt S.parent
  refine if_neg fun he => ?_
  rw [he] at h
  omega

/-- What belongs to the line of a grammar up to the size of the parent stands for itself. -/
theorem renamed_eq (S : Spares heir base start) (ht : target.InLine g)
    (h : sizeOf g ≤ sizeOf base) : target.renamed (inPlaceOf base heir) = target := by
  cases target with
  | builtin b => rfl
  | rule o r => exact congrArg (Target.rule · r) (S.inPlaceOf_eq (Nat.le_trans ht.sizeOf_le h))

theorem sound (S : Spares heir base start) (h : base.Reaches start name target) :
    Sound base target :=
  h.sound (S.built.parent_built S.parent)

/-- Among the grammars up to the size of the parent, nothing changes its meaning. -/
theorem renamed_away (S : Spares heir base start) {g : Grammar} (hg : sizeOf g ≤ sizeOf base)
    (ht : target.InLine g) :
    Meaning.renamed (inPlaceOf base heir) (.ok (g, target)) = .ok (g, target) := by
  simp only [Meaning.reworded, Except.map, S.inPlaceOf_eq hg, S.renamed_eq ht hg]

/-- What is applied on behalf of the heir is applied on behalf of the parent instead. -/
theorem renamed_here (S : Spares heir base start) (ht : target.InLine base) :
    Meaning.renamed (inPlaceOf base heir) (.ok (heir, target)) = .ok (base, target) := by
  simp only [Meaning.reworded, Except.map, inPlaceOf_heir, S.renamed_eq ht (Nat.le_refl _)]

/-- In the body of a rule that the match reaches on behalf of the heir, every application means what
it means on behalf of the parent. -/
theorem agreeing_here (S : Spares heir base start) {r : Rule}
    (h : base.Reaches start name (.rule o r)) :
    Agreeing (inPlaceOf base heir) (fun _ r => r) (Untouched heir base start) heir o
      r.body.subexprs := by
  intro e he as meaning hm
  have hsound := S.sound h
  have hle : sizeOf o ≤ sizeOf base := hsound.inLine.sizeOf_le
  rw [inPlaceOf_heir, S.inPlaceOf_eq hle]
  cases e with
  | apply rule args =>
    -- the name was checked when the parent was built, and the heir does not override it
    obtain ⟨g, t, hg, -⟩ := hsound.application he (show _ = some (args, _) from rfl)
    cases ht : base.target? rule with
    | none => rw [ht] at hg; cases hg
    | some t =>
      have hreach : base.Reaches start rule t := h.apply he ht
      have hsame : heir.target? rule = some t :=
        (Grammar.target?_of_not_local S.parent (S.kept hreach)).trans ht
      simp only [Expr.application?, hsame, ht, Option.some.injEq, Prod.mk.injEq] at hm ⊢
      obtain ⟨rfl, rfl⟩ := hm
      refine ⟨⟨rfl, (S.renamed_here (S.sound hreach).inLine).symm⟩, fun g target hok => ?_⟩
      cases hok
      exact .here hreach
  | super rule args =>
    cases ht : o.parent.bind fun p => p.target? rule with
    | none =>
      simp only [Expr.application?, ht, Option.some.injEq, Prod.mk.injEq] at hm ⊢
      obtain ⟨rfl, rfl⟩ := hm
      exact ⟨⟨rfl, rfl⟩, fun g target hok => by cases hok⟩
    | some t =>
      have hreach : base.Reaches start rule t := h.super he ht
      simp only [Expr.application?, ht, Option.some.injEq, Prod.mk.injEq] at hm ⊢
      obtain ⟨rfl, rfl⟩ := hm
      refine ⟨⟨rfl, (S.renamed_here (S.sound hreach).inLine).symm⟩, fun g target hok => ?_⟩
      cases hok
      exact .here hreach
  | foreign grammar rule args =>
    -- an import is that of the owner, whoever the rule runs for
    have hm' : (Expr.foreign grammar rule args).application? base o = some (as, meaning) := hm
    rw [hm']
    cases meaning with
    | error c => exact ⟨rfl, fun g target hok => by cases hok⟩
    | ok step =>
      obtain ⟨hline, hg⟩ := Expr.application?_inLine hsound.inLine hm'
      have hsmall : sizeOf step.1 < sizeOf base :=
        Nat.lt_of_lt_of_le (hg.resolve_left fun hg => hg.2 _ _ _ rfl) hle
      have hsame := S.renamed_away (Nat.le_of_lt hsmall) hline
      refine ⟨congrArg (fun m => some (as, m)) hsame.symm, fun g target hok => ?_⟩
      cases hok
      exact .away hsmall hline
  | _ => simp [Expr.application?] at hm

/-- On behalf of a grammar smaller than the parent, everything stays as it is. -/
theorem agreeing_away (S : Spares heir base start) (hd : sizeOf d < sizeOf base)
    (hline : Grammar.Descends d o) (es : List Expr) :
    Agreeing (inPlaceOf base heir) (fun _ r => r) (Untouched heir base start) d o es := by
  intro e _ as meaning hm
  have hod := hline.sizeOf_le
  rw [S.inPlaceOf_eq (Nat.le_of_lt hd), S.inPlaceOf_eq (by omega), hm]
  cases meaning with
  | error c => exact ⟨rfl, fun g target hok => by cases hok⟩
  | ok step =>
    obtain ⟨ht, hg⟩ := Expr.application?_inLine hline hm
    have hsmall : sizeOf step.1 < sizeOf base := by
      rcases hg with ⟨hg, -⟩ | hg
      · rw [hg]; exact hd
      · omega
    have hsame := S.renamed_away (Nat.le_of_lt hsmall) ht
    refine ⟨congrArg (fun m => some (as, m)) hsame.symm, fun g target hok => ?_⟩
    cases hok
    exact .away hsmall ht

/-- **The parent may be put for the heir** in all that an untouched match comes to. -/
theorem replaces (S : Spares heir base start) :
    Renaming (inPlaceOf base heir) (Untouched heir base start) where
  apart := by
    intro d d' o o' r r' h h' hd ho
    cases h with
    | here h =>
      have hsize := (S.sound h).inLine.sizeOf_le
      cases h' with
      | here h' =>
        have hsize' := (S.sound h').inLine.sizeOf_le
        rw [S.inPlaceOf_eq hsize, S.inPlaceOf_eq hsize'] at ho
        exact ⟨rfl, ho⟩
      | away hlt ht =>
        -- the parent itself is never the grammar of an import
        rw [inPlaceOf_heir, S.inPlaceOf_eq (Nat.le_of_lt hlt)] at hd
        rw [hd] at hlt
        omega
    | away hlt ht =>
      have hsize := ht.sizeOf_le
      cases h' with
      | here h' =>
        rw [inPlaceOf_heir, S.inPlaceOf_eq (Nat.le_of_lt hlt)] at hd
        rw [hd] at hlt
        omega
      | away hlt' ht' =>
        have hsize' := ht'.sizeOf_le
        rw [S.inPlaceOf_eq (by omega), S.inPlaceOf_eq (by omega)] at hd ho
        exact ⟨hd, ho⟩
  rule _ := ⟨rfl, rfl⟩
  dynamic := by
    intro d name h
    cases h with
    | here h => exact (S.fixed h).elim
    | away hlt _ =>
      have hle := Nat.le_of_lt hlt
      rw [S.inPlaceOf_eq hle]
      refine ⟨?_, fun target ht => .away hlt (Grammar.target?_inLine ht)⟩
      cases ht : d.target? name with
      | none => rfl
      | some target => exact congrArg some (S.renamed_eq (Grammar.target?_inLine ht) hle).symm
  spaces := by
    intro d h
    cases h with
    | here h =>
      obtain ⟨target, ht⟩ := base.exists_target?_spaces
      have hsame := Grammar.resolve?_of_not_local S.parent (S.kept (h.spaces ht))
      rw [inPlaceOf_heir, hsame]
      cases hr : base.resolve? "spaces" with
      | none => exact ⟨rfl, fun o r ho => by cases ho⟩
      | some or =>
        obtain ⟨o, r⟩ := or
        have ht : base.target? "spaces" = some (.rule o r) := by rw [Grammar.target?, hr]
        have hsize := (S.sound (h.spaces ht)).inLine.sizeOf_le
        refine ⟨by rw [Option.map_some, S.inPlaceOf_eq hsize], fun o' r' ho => ?_⟩
        cases ho
        exact .here (h.spaces ht)
    | away hlt _ =>
      rw [S.inPlaceOf_eq (Nat.le_of_lt hlt)]
      cases hr : d.resolve? "spaces" with
      | none => exact ⟨rfl, fun o r ho => by cases ho⟩
      | some or =>
        obtain ⟨o, r⟩ := or
        have hline := (Grammar.resolve?_eq_some "spaces" d hr).1
        have hsize : sizeOf o ≤ sizeOf base := Nat.le_trans hline.sizeOf_le (Nat.le_of_lt hlt)
        refine ⟨by rw [Option.map_some, S.inPlaceOf_eq hsize], fun o' r' ho => ?_⟩
        cases ho
        exact .away hlt hline
  body := by
    intro d o r h
    cases h with
    | here h => exact S.agreeing_here h
    | away hlt hline => exact S.agreeing_away hlt hline _

end Spares

namespace Engine

/-- **Overriding is local.** A match of a rule on behalf of an heir comes to the same as on behalf
of its parent, if no name that the heir defines is the rule's or comes up in the match, that of
`spaces` where a token is matched included, and no name is looked up at run time. -/
theorem matchRule_heir (e : Engine) (heir base : Grammar) (rule : String) (input : Input)
    (args : List Value) (hb : Grammar.Built heir) (hp : heir.parent = some base)
    (hr : (base.target? rule).isSome = true)
    (hkept : ∀ name target, base.Reaches rule name target → heir.rule? name = none)
    (hfixed : ∀ name, ¬ base.Reaches rule name (.builtin .apply)) :
    e.matchRule heir rule input args = e.matchRule base rule input args := by
  have S : Spares heir base rule := ⟨hb, hp, hkept _ _, hfixed _⟩
  obtain ⟨target, ht⟩ := Option.isSome_iff_exists.1 hr
  have hreach : base.Reaches rule rule target := .start ht
  have hsame : heir.target? rule = some target :=
    (Grammar.target?_of_not_local hp (S.kept hreach)).trans ht
  have hrun : e.run base rule input args false = e.run heir rule input args false := by
    have h := S.replaces.run_eq e hsame
      (by rw [Spares.inPlaceOf_heir, S.renamed_eq (S.sound hreach).inLine (Nat.le_refl _), ht])
      (.here hreach) input args false
    rwa [Spares.inPlaceOf_heir] at h
  unfold matchRule
  rw [hrun]

/-- A grammar of lists: `start = item ("," item)*`, `item = Words.word`, `spaces = '_'*` and
`file = start end`. -/
def wordLists : Draft :=
  { name := "WordLists", imports := [words.freeze]
    rules := [
      { name := "start"
        body := .sequence [.app "item", .many (.sequence [.token ",", .app "item"])] },
      { name := "item", body := .foreign "Words" "word" [] },
      { name := "spaces", body := .many (.literal "_") },
      { name := "file", body := .sequence [.app "start", .app "end"] }] }

/-- An heir with another `file` and a `word` of its own. -/
def wordFiles : Draft :=
  { name := "WordFiles", parent := some wordLists.freeze
    rules := [
      { name := "file", body := .choice [.super "file" [], .app "word"] },
      { name := "word", body := .literal "w" }] }

/-- All names that a match of `start` comes to, on behalf of `wordLists`. -/
def wordListNames : List (String × Target) :=
  [("start", ruleOf wordLists.freeze "start"), ("item", ruleOf wordLists.freeze "item"),
    ("token", .builtin .token), ("spaces", ruleOf wordLists.freeze "spaces")]

/-- An heir that overrides a rule which the match does not come to, and defines a name that only the
imported grammar applies. -/
theorem matchRule_heir_wordFiles :
    (Grammar.Built wordFiles.freeze ∧ wordFiles.freeze.parent = some wordLists.freeze ∧
      (wordLists.freeze.target? "start").isSome = true ∧
      (∀ name target, wordLists.freeze.Reaches "start" name target →
        wordFiles.freeze.rule? name = none) ∧
      ∀ name, ¬ wordLists.freeze.Reaches "start" name (.builtin .apply)) ∧
      ∀ input args, ({} : Engine).matchRule wordFiles.freeze "start" input args =
        ({} : Engine).matchRule wordLists.freeze "start" input args := by
  have hwords : Grammar.Built words.freeze :=
    .freeze (fun p hp => by cases hp) (fun i hi => by cases hi) (by decide +kernel)
  have hlists : Grammar.Built wordLists.freeze := by
    refine .freeze (fun p hp => by cases hp) (fun i hi => ?_) (by decide +kernel)
    cases List.mem_singleton.1 hi
    exact hwords
  have hfiles : Grammar.Built wordFiles.freeze := by
    refine .freeze (fun p hp => ?_) (fun i hi => by cases hi) (by decide +kernel)
    cases hp
    exact hlists
  have ht : wordLists.freeze.target? "start" = some (ruleOf wordLists.freeze "start") := by
    decide +kernel
  -- the list is closed under `leads`, so the match comes to no other name
  have hmem : ∀ name target, wordLists.freeze.Reaches "start" name target →
      (name, target) ∈ wordListNames := fun name target h =>
    h.mem (fun target h => by rw [ht] at h; cases h; exact .head _) (by decide +kernel)
  have hkept : ∀ name target, wordLists.freeze.Reaches "start" name target →
      wordFiles.freeze.rule? name = none := by
    have hnone : ∀ step ∈ wordListNames, wordFiles.freeze.rule? step.1 = none := by
      decide +kernel
    exact fun name target h => hnone _ (hmem _ _ h)
  have hfixed : ∀ name, ¬ wordLists.freeze.Reaches "start" name (.builtin .apply) := by
    have hne : ∀ step ∈ wordListNames, step.2 ≠ .builtin .apply := by decide +kernel
    exact fun name h => hne _ (hmem _ _ h) rfl
  have hr : (wordLists.freeze.target? "start").isSome = true := by rw [ht]; rfl
  exact ⟨⟨hfiles, rfl, hr, hkept, hfixed⟩, fun input args =>
    matchRule_heir {} wordFiles.freeze wordLists.freeze "start" input args hfiles rfl hr hkept
      hfixed⟩

end Engine

end Packrat
