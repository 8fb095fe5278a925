import Packrat.Proofs.Loading
import Packrat.Proofs.Renaming

/-!
# Grammars up to their stamps

Stamps tell grammars apart and do nothing else. What a grammar resolves, whether a draft can be
built and what a library makes of a request come to the same if other stamps are put, up to the
stamps of the grammars that come out.

* `Grammar.bare`: a grammar without its stamps.
* `Draft.build_bare`: building goes by the bare parts.
* `Library.Alike`: libraries that read alike and hold the same bare grammars.
* `Library.Alike.after`: they stay alike under the same requests, and give the same answers.
* `Engine.run_restamped`: a grammar that rests on no other matches alike under any stamp.
-/

namespace Packrat

/-! ### Rosters -/

namespace Roster

variable {α : Type} {key : α → String} {f : α → α} (hf : ∀ a, key (f a) = key a)

include hf

theorem insert_map (a : α) (entries : List α) :
    insert key (f a) (entries.map f) = (insert key a entries).map f := by
  induction entries with
  | nil => rfl
  | cons b bs ih =>
    simp only [insert, List.map_cons, hf, ih]
    split
    · rfl
    · split <;> rfl

theorem ofList_map (entries : List α) :
    ofList key (entries.map f) = (ofList key entries).map f := by
  induction entries using List.reverseRecOn with
  | nil => rfl
  | append_singleton as a ih =>
    rw [List.map_append, List.map_singleton, ofList_snoc, ofList_snoc, ih, insert_map hf]

end Roster

/-! ### Bare grammars -/

namespace Grammar

mutual

/-- **A grammar without its stamp**, and without the stamps of all that it rests on. -/
def bare : Grammar → Grammar
  | ⟨name, parent, imports, rules, _⟩ => ⟨name, bareParent parent, bareAll imports, rules, 0⟩

/-- `bare` on a parent. -/
def bareParent : Option Grammar → Option Grammar
  | none => none
  | some p => some (bare p)

/-- `bare` on imports. -/
def bareAll : List Grammar → List Grammar
  | [] => []
  | g :: gs => bare g :: bareAll gs

end

variable (g : Grammar) (name : String)

theorem bareParent_eq (p : Option Grammar) : bareParent p = p.map bare := by
  cases p <;> simp [bareParent]

theorem bareAll_eq (gs : List Grammar) : bareAll gs = gs.map bare := by
  induction gs with
  | nil => rw [bareAll, List.map_nil]
  | cons g gs ih => rw [bareAll, ih, List.map_cons]

@[simp] theorem bare_name : g.bare.name = g.name := by
  cases g
  rw [bare]

@[simp] theorem bare_parent : g.bare.parent = g.parent.map bare := by
  cases g
  rw [bare, bareParent_eq]

@[simp] theorem bare_imports : g.bare.imports = g.imports.map bare := by
  cases g
  rw [bare, bareAll_eq]

@[simp] theorem bare_rules : g.bare.rules = g.rules := by
  cases g
  rw [bare]

@[simp] theorem bare_rule? : g.bare.rule? name = g.rule? name := by
  unfold rule?
  rw [bare_rules]

theorem ancestry_bare : ∀ g : Grammar, g.bare.ancestry = g.ancestry
  | ⟨_, none, _, _, _⟩ => by simp only [bare, bareParent, ancestry]
  | ⟨_, some p, _, _, _⟩ => by simp only [bare, bareParent, ancestry, ancestry_bare p]
termination_by structural g => g

/-- **Names are resolved by the bare grammar** as by the grammar itself. -/
theorem resolve?_bare (name : String) : ∀ g : Grammar,
    g.bare.resolve? name = (g.resolve? name).map fun x => (x.1.bare, x.2)
  | ⟨n, parent, is, rules, stamp⟩ => by
    rw [resolve?_eq, resolve?_eq, bare_rule?, bare_parent]
    cases hr : rule? ⟨n, parent, is, rules, stamp⟩ name with
    | some r => rfl
    | none =>
      cases parent with
      | none => rfl
      | some p => exact resolve?_bare name p
termination_by structural g => g

theorem import?_bare (name : String) : ∀ g : Grammar,
    g.bare.import? name = (g.import? name).map bare
  | ⟨n, parent, is, rules, stamp⟩ => by
    rw [import?_eq, import?_eq, bare_imports, bare_parent, Roster.get?_map bare_name]
    dsimp only
    cases hr : Roster.get? Grammar.name name is with
    | some i => rfl
    | none =>
      cases parent with
      | none => rfl
      | some p => exact import?_bare name p
termination_by structural g => g

theorem target?_bare : g.bare.target? name = (g.target? name).map (Target.renamed bare) := by
  unfold target?
  rw [resolve?_bare]
  cases g.resolve? name with
  | some x => rfl
  | none => cases Builtin.ofName? name <;> rfl

/-! ### Checks -/

theorem checkCall_bare (home rule : String) (count : Nat) :
    g.bare.checkCall home rule count = g.checkCall home rule count := by
  unfold checkCall
  rw [target?_bare]
  cases g.target? rule with
  | none => rfl
  | some t => cases t <;> rfl

theorem checkApplication_bare (e : Expr) : g.bare.checkApplication e = g.checkApplication e := by
  cases e with
  | apply rule args => simp only [checkApplication, checkCall_bare, bare_name]
  | super rule args =>
    simp only [checkApplication, bare_parent, bare_name]
    cases g.parent with
    | none => rfl
    | some p => simp only [Option.map_some, checkCall_bare, bare_name]
  | foreign grammar rule args =>
    simp only [checkApplication, import?_bare]
    cases g.import? grammar with
    | none => rfl
    | some i => simp only [Option.map_some, checkCall_bare, bare_name]
  | _ => rfl

theorem checkRules_bare : g.bare.checkRules = g.checkRules := by
  unfold checkRules
  rw [bare_rules, funext g.checkApplication_bare]

end Grammar

namespace Draft

/-- A draft without stamps. -/
def bare (d : Draft) : Draft :=
  { d with parent := d.parent.map Grammar.bare, imports := d.imports.map Grammar.bare, stamp := 0 }

theorem freeze_bare (d : Draft) : d.bare.freeze = d.freeze.bare := by
  have hi := Roster.ofList_map Grammar.bare_name d.imports
  unfold freeze bare
  rw [Grammar.bare, Grammar.bareParent_eq, Grammar.bareAll_eq, hi]

theorem checkAncestry_bare (d : Draft) : d.bare.checkAncestry = d.checkAncestry := by
  unfold checkAncestry bare
  cases d.parent with
  | none => rfl
  | some p => simp only [Option.map_some, Grammar.ancestry_bare]

/-- **Building goes by the bare parts**: it fails alike, or gives the same bare grammar. -/
theorem build_bare (d : Draft) : d.bare.build = d.build.map Grammar.bare := by
  unfold build
  rw [checkAncestry_bare, freeze_bare, Grammar.checkRules_bare]
  show (d.checkAncestry >>= fun _ => checkDistinct d.name [] d.rules >>= fun _ => _) = _
  cases d.checkAncestry with
  | error c => rfl
  | ok _ =>
    cases checkDistinct d.name [] d.rules with
    | error c => rfl
    | ok _ => cases d.freeze.checkRules <;> rfl

end Draft

/-! ### Libraries -/

/-- Computations that come to what looks the same go on to what looks the same. -/
theorem map_bind_congr {ε α β γ δ : Type} {view : α → γ} {show' : β → δ} {m m' : Except ε α}
    {k k' : α → Except ε β} (h : m.map view = m'.map view)
    (hk : ∀ a a', view a = view a' → (k a).map show' = (k' a').map show') :
    (m >>= k).map show' = (m' >>= k').map show' := by
  cases m with
  | error e =>
    cases m' with
    | error e' => cases h; rfl
    | ok a' => cases h
  | ok a =>
    cases m' with
    | error e' => cases h
    | ok a' => exact hk a a' (Except.ok.inj h)

namespace Library

/-! ### Building from what is needed -/

section

variable {lib lib' : Library}

theorem require_congr {name : String}
    (h : (lib.get? name).map Grammar.bare = (lib'.get? name).map Grammar.bare) :
    (lib.require name).map Grammar.bare = (lib'.require name).map Grammar.bare := by
  unfold require
  cases hl : lib.get? name with
  | none =>
    cases hl' : lib'.get? name with
    | none => rfl
    | some g' => rw [hl, hl'] at h; cases h
  | some g =>
    cases hl' : lib'.get? name with
    | none => rw [hl, hl'] at h; cases h
    | some g' =>
      rw [hl, hl'] at h
      exact congrArg Except.ok (Option.some.inj h)

theorem mapM_require_congr : ∀ {names : List String},
    (∀ name ∈ names, (lib.get? name).map Grammar.bare = (lib'.get? name).map Grammar.bare) →
      (names.mapM lib.require).map (List.map Grammar.bare) =
        (names.mapM lib'.require).map (List.map Grammar.bare)
  | [], _ => rfl
  | n :: ns, h => by
    rw [List.mapM_cons, List.mapM_cons]
    refine map_bind_congr (require_congr (h n (.head _))) fun i i' hi => ?_
    refine map_bind_congr (mapM_require_congr fun m hm => h m (.tail _ hm)) fun is is' his => ?_
    exact congrArg Except.ok (congrArg₂ List.cons hi his)

/-- **A declaration is built from what it names**: libraries that agree there, up to stamps, build
it alike. -/
theorem build_congr {d : Declaration}
    (h : ∀ name ∈ d.dependencies,
      (lib.get? name).map Grammar.bare = (lib'.get? name).map Grammar.bare) :
    (lib.build d).map Grammar.bare = (lib'.build d).map Grammar.bare := by
  have hparent : (d.parent.mapM lib.require).map (Option.map Grammar.bare) =
      (d.parent.mapM lib'.require).map (Option.map Grammar.bare) := by
    cases hp : d.parent with
    | none => rfl
    | some n =>
      have hn := h n (by simp [Declaration.dependencies, hp])
      exact map_bind_congr (require_congr hn) fun p p' hp => congrArg (fun x => Except.ok (some x)) hp
  have himports : (d.imports.mapM lib.require).map (List.map Grammar.bare) =
      (d.imports.mapM lib'.require).map (List.map Grammar.bare) :=
    mapM_require_congr fun name hn => h name (by simp [Declaration.dependencies, hn])
  refine map_bind_congr hparent fun p p' hp => ?_
  refine map_bind_congr himports fun is is' his => ?_
  unfold buildDraft
  rw [← Draft.build_bare, ← Draft.build_bare]
  simp only [Draft.bare, hp, his]

end

/-! ### Alike libraries -/

/-- **Libraries that differ in stamps only**: they read alike, and hold the same bare grammars. -/
structure Alike (lib lib' : Library) : Prop where
  parse (origin source : String) : lib.parse origin source = lib'.parse origin source
  grammars : lib.grammars.map Grammar.bare = lib'.grammars.map Grammar.bare

/-- An answer without stamps. -/
def bareAnswer (r : Except Error (List Grammar)) : Except Error (List Grammar) :=
  r.map fun gs => gs.map Grammar.bare

namespace Alike

variable {lib lib' : Library} {g g' : Grammar}

theorem get? (h : lib.Alike lib') (name : String) :
    (lib.get? name).map Grammar.bare = (lib'.get? name).map Grammar.bare := by
  unfold Library.get?
  rw [← Roster.get?_map Grammar.bare_name, ← Roster.get?_map Grammar.bare_name, h.grammars]

theorem has (h : lib.Alike lib') (name : String) : lib.has name = lib'.has name := by
  have hs := congrArg Option.isSome (h.get? name)
  rwa [Option.isSome_map, Option.isSome_map] at hs

theorem add (h : lib.Alike lib') (hg : g.bare = g'.bare) : (lib.add g).Alike (lib'.add g') where
  parse := h.parse
  grammars := by
    unfold Library.add
    dsimp only
    rw [← Roster.insert_map Grammar.bare_name, ← Roster.insert_map Grammar.bare_name, h.grammars,
      hg]

/-- A declaration is built alike. -/
theorem build (h : lib.Alike lib') (d : Declaration) :
    (lib.build d).map Grammar.bare = (lib'.build d).map Grammar.bare :=
  build_congr fun name _ => h.get? name

theorem pending (h : lib.Alike lib') (decls : List Declaration) :
    lib.pending decls = lib'.pending decls := by
  unfold Library.pending
  simp only [h.has]

/-- Declarations are built alike in order. -/
theorem buildInOrder (decls : List Declaration) : ∀ (order : List String)
    {built built' : List Grammar} {lib lib' : Library}, lib.Alike lib' →
      built.map Grammar.bare = built'.map Grammar.bare →
        (buildInOrder decls order built lib).1.Alike (buildInOrder decls order built' lib').1 ∧
          bareAnswer (buildInOrder decls order built lib).2 =
            bareAnswer (buildInOrder decls order built' lib').2
  | [], built, built', lib, lib', h, hb => by
    refine ⟨h, ?_⟩
    simp only [Library.buildInOrder, bareAnswer, Except.map, List.map_reverse, hb]
  | name :: rest, built, built', lib, lib', h, hb => by
    unfold Library.buildInOrder
    cases Roster.get? Declaration.name name decls with
    | none => exact buildInOrder decls rest h hb
    | some d =>
      have hd := h.build d
      cases hl : lib.build d with
      | error c =>
        cases hl' : lib'.build d with
        | error c' =>
          rw [hl, hl'] at hd
          cases hd
          simp only [hl, hl', and_true]
          exact h
        | ok g' => rw [hl, hl'] at hd; cases hd
      | ok g =>
        cases hl' : lib'.build d with
        | error c' => rw [hl, hl'] at hd; cases hd
        | ok g' =>
          rw [hl, hl'] at hd
          have hg : g.bare = g'.bare := Except.ok.inj hd
          have hb' : (g :: built).map Grammar.bare = (g' :: built').map Grammar.bare := by
            rw [List.map_cons, List.map_cons, hg, hb]
          simp only [hl, hl']
          exact buildInOrder decls rest (h.add hg) hb'

/-- Declarations are loaded alike. -/
theorem loadDecls (h : lib.Alike lib') (decls : List Declaration) :
    (lib.loadDecls decls).1.Alike (lib'.loadDecls decls).1 ∧
      bareAnswer (lib.loadDecls decls).2 = bareAnswer (lib'.loadDecls decls).2 := by
  unfold Library.loadDecls
  rw [h.pending]
  split
  · exact buildInOrder _ _ h rfl
  · exact ⟨h, rfl⟩

/-- A description is loaded alike. -/
theorem load (h : lib.Alike lib') (origin source : String) :
    (lib.load origin source).1.Alike (lib'.load origin source).1 ∧
      (lib.load origin source).2.map Grammar.bare = (lib'.load origin source).2.map Grammar.bare := by
  unfold Library.load
  rw [h.parse]
  cases lib'.parse origin source with
  | error e => exact ⟨h, rfl⟩
  | ok d =>
    obtain ⟨ha, hr⟩ := h.loadDecls [d]
    rcases hl : lib.loadDecls [d] with ⟨l, e | gs⟩
    · rcases hl' : lib'.loadDecls [d] with ⟨l', e' | gs'⟩
      · rw [hl, hl'] at ha hr
        cases hr
        simp only [hl, hl', and_true]
        exact ha
      · rw [hl, hl'] at hr
        cases hr
    · rcases hl' : lib'.loadDecls [d] with ⟨l', e' | gs'⟩
      · rw [hl, hl'] at hr
        cases hr
      · rw [hl, hl'] at ha hr
        have hgs : gs.map Grammar.bare = gs'.map Grammar.bare := Except.ok.inj hr
        simp only [hl, hl']
        cases gs with
        | nil => cases gs' with
          | nil => exact ⟨ha, rfl⟩
          | cons g' gs' => cases hgs
        | cons g gs => cases gs' with
          | nil => cases hgs
          | cons g' gs' => exact ⟨ha, congrArg Except.ok (List.cons.inj hgs).1⟩

theorem parseAll (h : lib.Alike lib') : ∀ (sources : List String) (first : Nat),
    lib.parseAll first sources = lib'.parseAll first sources
  | [], _ => rfl
  | source :: rest, first => by
    rw [Library.parseAll, Library.parseAll, h.parse, parseAll h rest]

end Alike

/-- The same request, with grammars that are the same up to stamps. -/
inductive Request.Alike : Request → Request → Prop
  | insert {g g' : Grammar} (h : g.bare = g'.bare) : Alike (.insert g) (.insert g')
  | load (batch : Batch) : Alike (.load batch) (.load batch)

namespace Alike

variable {lib lib' : Library} {request request' : Request} {past past' : List Request}

/-- **Alike libraries do the same**, up to stamps, and answer the same. -/
theorem perform (h : lib.Alike lib') (hr : request.Alike request') :
    (lib.perform request).1.Alike (lib'.perform request').1 ∧
      bareAnswer (lib.perform request).2 = bareAnswer (lib'.perform request').2 := by
  cases hr with
  | @insert g g' hg =>
    have hname : g.name = g'.name := by rw [← g.bare_name, hg, g'.bare_name]
    simp only [Library.perform, Library.insert, h.has, hname]
    split
    next l hl =>
      split at hl
      · cases hl
      next hfree =>
        rw [if_neg hfree]
        cases hl
        exact ⟨h.add hg, rfl⟩
    next c hl =>
      split at hl
      next htaken =>
        rw [if_pos htaken]
        cases hl
        exact ⟨h, rfl⟩
      · cases hl
  | load batch =>
    cases batch with
    | description origin source =>
      obtain ⟨ha, hr⟩ := h.load origin source
      refine ⟨ha, ?_⟩
      have hmap (r : Except Error Grammar) :
          bareAnswer (r.map fun g => [g]) = (r.map Grammar.bare).map fun g => [g] := by
        cases r <;> rfl
      show bareAnswer ((lib.load origin source).2.map fun g => [g]) =
        bareAnswer ((lib'.load origin source).2.map fun g => [g])
      rw [hmap, hmap, hr]
    | descriptions sources =>
      simp only [Library.perform, loadAll, h.parseAll]
      split
      · exact ⟨h, rfl⟩
      · exact h.loadDecls _
    | declarations decls => exact h.loadDecls decls

/-- **Alike libraries stay alike** under the same requests. -/
theorem after (h : lib.Alike lib') (hp : List.Forall₂ Request.Alike past past') :
    (lib.after past).Alike (lib'.after past') := by
  induction hp generalizing lib lib' with
  | nil => exact h
  | cons hr _ ih => exact ih (h.perform hr).1

end Alike

end Library

/-! ### Grammars that rest on no other -/

namespace Grammar

/-- A grammar that neither inherits nor imports. -/
structure Alone (g : Grammar) : Prop where
  parent : g.parent = none
  imports : g.imports = []

/-- The grammar under another stamp. -/
def restamped (g : Grammar) (stamp : Nat) : Grammar := { g with stamp }

/-- Puts a grammar under another stamp for the grammar, and every other grammar for itself. -/
def restamp (g : Grammar) (stamp : Nat) (x : Grammar) : Grammar :=
  if x = g then g.restamped stamp else x

namespace Alone

variable {g : Grammar} (h : g.Alone) (stamp : Nat)

include h

theorem resolve?_eq (name : String) :
    g.resolve? name = (g.rule? name).map fun r => (g, r) := by
  rw [Grammar.resolve?_eq, h.parent]
  cases g.rule? name <;> rfl

/-- A name that it has a rule for means that rule. -/
theorem target?_of_rule? {name : String} {r : Rule} (hr : g.rule? name = some r) :
    g.target? name = some (.rule g r) := by
  unfold target?
  rw [h.resolve?_eq, hr]
  rfl

theorem restamped : (g.restamped stamp).Alone := ⟨h.parent, h.imports⟩

/-- A name is resolved under any stamp as it was. -/
theorem resolve?_restamped (name : String) :
    (g.restamped stamp).resolve? name =
      (g.resolve? name).map fun x => (g.restamp stamp x.1, x.2) := by
  rw [(h.restamped stamp).resolve?_eq, h.resolve?_eq]
  show (g.rule? name).map _ = _
  cases g.rule? name with
  | none => rfl
  | some r => simp [restamp]

theorem target?_restamped (name : String) :
    (g.restamped stamp).target? name =
      (g.target? name).map (Target.renamed (g.restamp stamp)) := by
  unfold target?
  rw [h.resolve?_restamped]
  cases g.resolve? name with
  | some x => rfl
  | none => cases Builtin.ofName? name <;> rfl

theorem import?_eq (name : String) : g.import? name = none := by
  rw [Grammar.import?_eq, h.imports, h.parent]
  rfl

/-- What a match on behalf of the grammar comes to: its own rules, and built-in ones. -/
def Own (g d : Grammar) (target : Target) : Prop :=
  d = g ∧ ∀ o r, target = .rule o r → o = g

theorem own_target? {name : String} {target : Target} (ht : g.target? name = some target) :
    Own g g target := by
  refine ⟨rfl, fun o r hr => ?_⟩
  subst hr
  unfold target? at ht
  rw [h.resolve?_eq] at ht
  cases hr : g.rule? name with
  | none =>
    rw [hr] at ht
    obtain ⟨b, -, hb⟩ := Option.map_eq_some_iff.1 ht
    cases hb
  | some r' =>
    rw [hr] at ht
    cases ht
    rfl

/-- **A grammar that rests on no other may be put under another stamp.** -/
theorem renamed : Renaming (g.restamp stamp) (Own g) where
  apart := by
    rintro d d' o o' r r' ⟨rfl, ho⟩ ⟨rfl, ho'⟩ - -
    exact ⟨rfl, (ho o r rfl).trans (ho' o' r' rfl).symm⟩
  rule _ := ⟨rfl, rfl⟩
  dynamic := by
    rintro d name ⟨rfl, -⟩
    rw [show d.restamp stamp d = d.restamped stamp from if_pos rfl]
    exact ⟨h.target?_restamped stamp name, fun target ht => h.own_target? ht⟩
  spaces := by
    rintro d ⟨rfl, -⟩
    rw [show d.restamp stamp d = d.restamped stamp from if_pos rfl]
    refine ⟨h.resolve?_restamped stamp "spaces", fun o r hr => ?_⟩
    have ht : d.target? "spaces" = some (.rule o r) := by rw [target?, hr]
    exact h.own_target? ht
  body := by
    rintro d o r ⟨rfl, ho⟩ e - as meaning hm
    obtain rfl := ho o r rfl
    rw [show o.restamp stamp o = o.restamped stamp from if_pos rfl]
    cases e with
    | apply rule args =>
      simp only [Expr.application?, h.target?_restamped stamp, Option.some.injEq,
        Prod.mk.injEq] at hm ⊢
      obtain ⟨rfl, rfl⟩ := hm
      cases ht : o.target? rule with
      | none => exact ⟨⟨rfl, rfl⟩, fun g t hok => by cases hok⟩
      | some t =>
        refine ⟨⟨rfl, ?_⟩, fun g target hok => ?_⟩
        · simp [Meaning.reworded, Except.map, restamp]
        · cases hok
          exact h.own_target? ht
    | super rule args =>
      have hp : (o.restamped stamp).parent = none := h.parent
      simp only [Expr.application?, h.parent, hp, Option.bind_none, Option.some.injEq,
        Prod.mk.injEq] at hm ⊢
      obtain ⟨rfl, rfl⟩ := hm
      exact ⟨⟨rfl, rfl⟩, fun g t hok => by cases hok⟩
    | foreign grammar rule args =>
      simp only [Expr.application?, h.import?_eq, (h.restamped stamp).import?_eq,
        Option.some.injEq, Prod.mk.injEq] at hm ⊢
      obtain ⟨rfl, rfl⟩ := hm
      exact ⟨⟨rfl, rfl⟩, fun g t hok => by cases hok⟩
    | _ => simp [Expr.application?] at hm

end Alone

end Grammar

theorem Draft.freeze_alone (d : Draft) (hp : d.parent = none) (hi : d.imports = []) :
    d.freeze.Alone :=
  ⟨hp, by unfold freeze; rw [hi]; rfl⟩

theorem Notation.grammar_alone : grammar.Alone := draft.freeze_alone rfl rfl

/-- **A grammar that rests on no other matches alike under any stamp.** -/
theorem Engine.run_restamped (e : Engine) {g : Grammar} (h : g.Alone) (stamp : Nat)
    (rule : String) (input : Input) (args : List Value) (toEnd : Bool) :
    e.run (g.restamped stamp) rule input args toEnd = e.run g rule input args toEnd := by
  have hself : g.restamp stamp g = g.restamped stamp := if_pos rfl
  have ht' := h.target?_restamped stamp rule
  cases ht : g.target? rule with
  | none =>
    rw [ht] at ht'
    unfold Engine.run Engine.start applyName
    rw [ht, ht']
    rfl
  | some target =>
    rw [ht] at ht'
    have hrun := (h.renamed stamp).run_eq e ht (by rw [hself]; exact ht') (h.own_target? ht) input
      args toEnd
    rwa [hself] at hrun

end Packrat
