import Packrat.Proofs.Kinding
import Packrat.Proofs.Stamps

/-!
# Reading descriptions

The notation builds untyped trees, and `Declaration.ofTree` takes them apart. The two agree: the
rules of the notation keep to a kinding in which a file yields a tree that can be read. So a text is
read as a declaration, or it does not follow the notation, or it nests too deeply; and if all that
is well, only a range with an odd bound can be amiss.

* `Notation.kinding`: the kinds of what the rules of the notation yield and bind.
* `Notation.covers`: the rules keep to it.
* `Library.reading_sound`: how reading a description may fail, and how loading one may.
-/

namespace Packrat

namespace Notation

/-- The kinds of the values that the rules of the notation yield. -/
def yieldsOf : (rule : String) → Kind
  | "word" | "name" | "escape" | "sqChar" | "dqChar" | "sqString" | "dqString" | "quoted"
  | "import" => .text
  | "numLit" => .number
  | "hostArgs" | "callArgs" => .list .action
  | "host" | "hostCall" | "hostNode" | "hostList" | "hostString" | "hostNumber" | "hostConst"
  | "hostVar" => .action
  | "choice" | "sequence" | "term" | "suffixed" | "primary" => .expr
  | "rule" => .rule
  | "parent" => .parent
  | "grammar" | "file" => .grammar
  | _ => .anything

/-- The kinds of the values that the names in the rules of the notation are bound to. -/
def bindsTo : (rule name : String) → Kind
  | "numLit", "n" => .numeral
  | "hostNumber", "n" | "primary", "n" => .number
  | _, "cs" => .list .anything
  | _, "as" | "hostNode", "args" | "hostArgs", "rest" => .list .action
  | _, "h" | "hostArgs", "first" => .action
  | "sequence", "ts" | "sequence", "items" | "choice", "rest" => .list .expr
  | "choice", "first" | "term", "t" | "term", "e" | "suffixed", "p" | "primary", "c"
  | "rule", "b" => .expr
  | "rule", "ps" | "grammar", "is" => .list .text
  | "grammar", "p" => .parent
  | "grammar", "rs" => .list .rule
  | "file", "g" => .grammar
  | _, _ => .text

/-- **The kinding of the notation.** -/
def kinding : Kinding := ⟨yieldsOf, bindsTo⟩

/-- Every rule of the notation keeps to its kinding, and two of them take no arguments: white space,
and the rule that reads a description. -/
theorem rules_check :
    (∀ r ∈ grammar.rules,
      (r.body.check kinding grammar (bindsTo r.name) (yieldsOf r.name) r.params).isSome = true ∧
        (r.name ∈ ["spaces", entry] → r.params = [])) ∧
      (grammar.rule? entry).isSome = true := by
  decide +kernel

theorem mem_rules {name : String} {o : Grammar} {r : Rule}
    (h : grammar.resolve? name = some (o, r)) : r ∈ grammar.rules ∧ r.name = name := by
  rw [grammar_alone.resolve?_eq] at h
  obtain ⟨r', hr, he⟩ := Option.map_eq_some_iff.1 h
  cases he
  exact ⟨Roster.mem_of_get? hr, Grammar.rule?_name hr⟩

/-- **The rules of the notation keep to its kinding.** -/
theorem covers : kinding.Covers grammar where
  rule h := (rules_check.1 _ (mem_rules h).1).1
  spaces h := (rules_check.1 _ (mem_rules h).1).2 (by rw [(mem_rules h).2]; simp)

theorem exists_entry : ∃ r, grammar.resolve? entry = some (grammar, r) ∧ r.params = [] ∧
    kinding.yields r.name = .grammar := by
  obtain ⟨r, hr⟩ := Option.isSome_iff_exists.1 rules_check.2
  have hresolve : grammar.resolve? entry = some (grammar, r) := by
    rw [grammar_alone.resolve?_eq, hr]
    rfl
  obtain ⟨hmem, hname⟩ := mem_rules hresolve
  exact ⟨r, hresolve, (rules_check.1 r hmem).2 (by rw [hname]; simp), by rw [hname]; rfl⟩

/-- **What a text is matched as** can be read, but for odd bounds. A match fails only if the text does
not follow the notation, or at the limit on nesting: no action ever fails. -/
theorem matchAll_meets (options : Options) (source : String) :
    Meets (fun c => (∃ failure, c = .parse failure) ∨ c = .recursionLimit options.maxDepth)
      (fun tree => tree.Readable (Declaration.ofTree tree))
      (({ options } : Engine).matchAll grammar entry (.ofString source)) :=
  covers.matchAll exists_entry options source.toList.toArray

end Notation

/-! ### Building -/

/-- What is wrong with a description or a grammar, rather than with a match. -/
def Cause.OnLoad (c : Cause) : Prop := c.category = .load

theorem Draft.checkAncestry_meets (d : Draft) :
    Meets Cause.OnLoad (fun _ => True) d.checkAncestry := by
  unfold checkAncestry
  split
  · split
    · rfl
    · trivial
  · trivial

theorem Draft.checkDistinct_meets (grammar : String) (seen : List String) (rules : List Rule) :
    Meets Cause.OnLoad (fun _ => True) (checkDistinct grammar seen rules) := by
  induction rules generalizing seen with
  | nil => trivial
  | cons r rules ih =>
    unfold checkDistinct
    split
    · rfl
    · exact ih _

namespace Grammar

theorem checkCall_meets (g : Grammar) (home rule : String) (count : Nat) :
    Meets Cause.OnLoad (fun _ => True) (g.checkCall home rule count) := by
  unfold checkCall
  split
  · rfl
  · split
    · trivial
    · rfl

theorem checkApplication_meets (g : Grammar) (e : Expr) :
    Meets Cause.OnLoad (fun _ => True) (g.checkApplication e) := by
  unfold checkApplication
  split
  · exact g.checkCall_meets _ _ _
  · split
    · rfl
    · exact checkCall_meets _ _ _ _
  · split
    · rfl
    · exact checkCall_meets _ _ _ _
  · trivial

end Grammar

/-- **A draft that cannot be built** is one that a description should not have declared. -/
theorem Draft.build_meets (d : Draft) : Meets Cause.OnLoad (fun _ => True) d.build := by
  have hrules : Meets Cause.OnLoad (fun _ => True) d.freeze.checkRules :=
    .forM fun e _ => d.freeze.checkApplication_meets e
  exact d.checkAncestry_meets.bind fun _ _ => (checkDistinct_meets _ _ _).bind fun _ _ =>
    hrules.bind fun _ _ => trivial

namespace Library

theorem require_meets (lib : Library) (name : String) :
    Meets Cause.OnLoad (fun _ => True) (lib.require name) := by
  unfold require
  split
  · trivial
  · rfl

theorem build_meets (lib : Library) (d : Declaration) :
    Meets Cause.OnLoad (fun _ => True) (lib.build d) := by
  have hparent : Meets Cause.OnLoad (fun _ => True) (d.parent.mapM lib.require) := by
    cases d.parent with
    | none => trivial
    | some name => exact (lib.require_meets name).bind fun _ _ => trivial
  have himports : Meets Cause.OnLoad (fun gs => ∀ g ∈ gs, True) (d.imports.mapM lib.require) :=
    .mapM fun name _ => lib.require_meets name
  exact hparent.bind fun _ _ => himports.bind fun _ _ => Draft.build_meets _

theorem buildInOrder_meets (decls : List Declaration) (order : List String) (built : List Grammar)
    (lib : Library) :
    Meets (fun e : Error => e.cause.OnLoad) (fun _ => True)
      (buildInOrder decls order built lib).2 := by
  induction order generalizing built lib with
  | nil => trivial
  | cons name rest ih =>
    unfold buildInOrder
    split
    · exact ih built lib
    next d _ =>
      split
      · exact ih _ _
      next cause hb => exact (lib.build_meets d).error hb

/-- **Declarations that cannot be loaded** are ones that no description should have declared. -/
theorem loadDecls_meets (lib : Library) (decls : List Declaration) :
    Meets (fun e : Error => e.cause.OnLoad) (fun _ => True) (lib.loadDecls decls).2 := by
  have hpending : Meets Cause.OnLoad (fun _ => True) (lib.pending decls) := by
    refine .of_error fun c hc => ?_
    refine foldlM_error Cause.OnLoad (fun roster d _ c hd => ?_) hc
    split at hd
    · cases hd; rfl
    · cases hd
  have horder : Meets Cause.OnLoad (fun _ => True)
      (do let roster ← lib.pending decls; return (roster, ← dependencyOrder roster)) := by
    refine hpending.bind fun roster _ => ?_
    have hvisit : Meets Cause.OnLoad (fun _ => True) (dependencyOrder roster) := by
      refine .of_error fun c hc => ?_
      obtain ⟨chain, rfl⟩ := dependencyOrder_error hc
      rfl
    exact hvisit.bind fun _ _ => trivial
  unfold loadDecls
  split
  · exact buildInOrder_meets _ _ _ lib
  next cause hc => exact horder.error hc

/-! ### Reading -/

section

variable (lib : Library) {limit : Nat} (origin : String) {source : String}
  (h : Meets (fun c => (∃ failure, c = .parse failure) ∨ c = .recursionLimit limit)
    (fun tree => tree.Readable (Declaration.ofTree tree))
    (lib.engine.matchAll lib.reader Notation.entry (.ofString source)))

include h

/-- How reading a description fails, if matches are readable. -/
theorem parse_meets :
    Meets
      (fun e : Error => (∃ failure, e.cause = .grammarLoad failure) ∨
        e.cause = .recursionLimit limit ∨
          ∃ tree bound,
            lib.engine.matchAll lib.reader Notation.entry (.ofString source) = .ok tree ∧
              tree.HasOddBound bound ∧ e.cause = .oddBound bound)
      (fun _ => True) (lib.parse origin source) := by
  unfold parse
  cases hm : lib.engine.matchAll lib.reader Notation.entry (.ofString source) with
  | error c =>
    rcases h.error hm with ⟨failure, rfl⟩ | rfl
    · exact .inl ⟨failure, rfl⟩
    · exact .inr (.inl rfl)
  | ok tree =>
    have hread : tree.Readable (Declaration.ofTree tree) := h.result hm
    show Meets _ _ ((Declaration.ofTree tree).mapError fun cause => ({ cause } : Error))
    cases hd : Declaration.ofTree tree with
    | error c =>
      obtain ⟨bound, hbound, rfl⟩ := hread.error hd
      exact .inr (.inr ⟨tree, bound, rfl, hbound, rfl⟩)
    | ok d => trivial

/-- How loading a description fails, if matches are readable. -/
theorem load_meets :
    Meets (fun e : Error => e.cause.OnLoad ∨ e.cause = .recursionLimit limit) (fun _ => True)
      (lib.load origin source).2 := by
  have hparse := parse_meets lib origin h
  unfold load
  split
  next e he =>
    rcases hparse.error he with ⟨failure, hc⟩ | hc | ⟨tree, bound, -, -, hc⟩
    · exact .inl (by rw [hc]; rfl)
    · exact .inr hc
    · exact .inl (by rw [hc]; rfl)
  next d _ =>
    have hload := loadDecls_meets lib [d]
    split
    · trivial
    · exact .inl rfl
    next e he =>
      rw [he] at hload
      exact .inl hload

end

/-- **The notation and the reading of its trees agree**, whatever the text and the options. A match
with the notation fails only if the text does not follow it, or at the limit on nesting. What is
matched can be read, unless it has a range with a bound that is not exactly one character. So these
are the ways in which reading a description can fail, and loading one fails only with a cause of the
load category, or at the limit. -/
theorem reading_sound (options : Options) (grammars : List Grammar) (origin source : String) :
    let lib : Library := { engine := { options }, grammars }
    let matched := lib.engine.matchAll Notation.grammar Notation.entry (.ofString source)
    (∀ c, matched = .error c →
      (∃ failure, c = .parse failure) ∨ c = .recursionLimit options.maxDepth) ∧
    (∀ tree c, matched = .ok tree → Declaration.ofTree tree = .error c →
      ∃ bound, tree.HasOddBound bound ∧ c = .oddBound bound) ∧
    (∀ e, lib.parse origin source = .error e →
      (∃ failure, e.cause = .grammarLoad failure) ∨ e.cause = .recursionLimit options.maxDepth ∨
        ∃ tree bound, matched = .ok tree ∧ tree.HasOddBound bound ∧ e.cause = .oddBound bound) ∧
    ∀ e, (lib.load origin source).2 = .error e →
      e.cause.category = .load ∨ e.cause = .recursionLimit options.maxDepth := by
  intro lib matched
  have hmatch := Notation.matchAll_meets options source
  refine ⟨fun c hc => hmatch.error hc, fun tree c ht hc => ?_,
    fun e he => (parse_meets lib origin hmatch).error he,
    fun e he => (load_meets lib origin hmatch).error he⟩
  have hread : tree.Readable (Declaration.ofTree tree) := hmatch.result ht
  exact hread.error hc

end Library

end Packrat
