import Mathlib.Data.List.Forall2
import Packrat.Library.Basic
import Packrat.Proofs.Ordering

/-!
# Loading only adds

A library changes by requests, and a request may fail at many points: a description cannot be read,
a name is taken, declarations need one another in a circle, one of them cannot be built. Whatever
happens, what was there before stays, and what is added is complete: a grammar that passed every
check, built on the library's own grammars.

* `Library.Complete`: what holds of a library at all times.
* `Declaration.BuiltFrom`: a grammar that was built from a declaration and the grammars of a library.
* `buildInOrder_eq`: what is there after building, up to the first declaration that fails.
* `Library.Loaded`: what becomes of a batch of declarations.
* `Library.Request`, `Library.perform`, `Library.after`: requests, and what they leave behind.
* `Library.history_onlyAdds`: all of this for every history of requests.
-/

namespace Packrat

/-! ### Complete grammars -/

/-- **The ancestry of a built grammar is free of repeated names.** -/
theorem Grammar.Built.nodup_ancestry {g : Grammar} (h : Built g) : g.ancestry.Nodup := by
  induction h with
  | @build draft g _ _ ok ihp _ =>
    obtain ⟨hcheck, -, -, rfl⟩ := Draft.build_passed ok
    obtain ⟨name, parent, imports, rules, stamp⟩ := draft
    cases parent with
    | none => exact List.nodup_cons.2 ⟨List.not_mem_nil, List.nodup_nil⟩
    | some p =>
      have hnot : name ∉ p.ancestry := by
        intro hin
        simp only [Draft.checkAncestry, hin, if_true] at hcheck
        cases hcheck
      exact List.nodup_cons.2 ⟨hnot, ihp p rfl⟩

namespace Library

variable {lib lib' : Library} {g : Grammar} {name : String}

/-- **What holds of a library at all times**: its entries are in the order of their names, and all
of them were built, with all that they rest on. -/
structure Complete (lib : Library) : Prop where
  ordered : Roster.Ordered Grammar.name lib.grammars
  built : ∀ g ∈ lib.grammars, Grammar.Built g

/-- What was there is there unchanged, and descriptions are read as before. -/
structure Extends (lib lib' : Library) : Prop where
  entry : ∀ name g, lib.get? name = some g → lib'.get? name = some g
  reader : lib'.reader = lib.reader
  engine : lib'.engine = lib.engine

theorem Extends.refl (lib : Library) : lib.Extends lib := ⟨fun _ _ h => h, rfl, rfl⟩

theorem Extends.trans {lib'' : Library} (h : lib.Extends lib') (h' : lib'.Extends lib'') :
    lib.Extends lib'' :=
  ⟨fun name g hg => h'.entry name g (h.entry name g hg), h'.reader.trans h.reader,
    h'.engine.trans h.engine⟩

theorem get?_add (lib : Library) (g : Grammar) (name : String) :
    (lib.add g).get? name = if g.name = name then some g else lib.get? name :=
  Roster.get?_insert g name lib.grammars

theorem Extends.add (h : lib.has g.name = false) : lib.Extends (lib.add g) := by
  refine ⟨fun name g' hg => ?_, rfl, rfl⟩
  rw [get?_add, if_neg]
  · exact hg
  · rintro rfl
    rw [has, Roster.has, show Roster.get? _ _ _ = _ from hg] at h
    cases h

theorem Complete.add (h : lib.Complete) (hg : Grammar.Built g) : (lib.add g).Complete where
  ordered := h.ordered.insert g
  built x hx := (Roster.mem_of_mem_insert hx).elim (fun he => he ▸ hg) (h.built x)

theorem Complete.empty (reader : Grammar) (engine : Engine) :
    ({ reader, engine } : Library).Complete where
  ordered := List.Pairwise.nil
  built g hg := by cases hg

end Library

/-! ### Building in order -/

/-- Checked rules have distinct names. -/
theorem Draft.checkDistinct_ok {grammar : String} : ∀ {seen : List String} {rules : List Rule},
    checkDistinct grammar seen rules = .ok () →
      (∀ r ∈ rules, r.name ∉ seen) ∧ (rules.map Rule.name).Nodup
  | _, [], _ => ⟨fun _ _ => (by contradiction), List.nodup_nil⟩
  | seen, r :: rs, h => by
    rw [checkDistinct] at h
    split at h
    · cases h
    next hr =>
      obtain ⟨hrs, hn⟩ := checkDistinct_ok h
      refine ⟨fun x hx => ?_, List.nodup_cons.2 ⟨fun hin => ?_, hn⟩⟩
      · rcases List.mem_cons.1 hx with rfl | hx
        · exact hr
        · exact fun hin => hrs x hx (.tail _ hin)
      · obtain ⟨x, hx, he⟩ := List.mem_map.1 hin
        exact hrs x hx (he ▸ .head _)

/-- A grammar has the rules that its draft has. -/
theorem Draft.mem_rules_of_build {draft : Draft} {g : Grammar} (h : draft.build = .ok g) (r : Rule) :
    r ∈ g.rules ↔ r ∈ draft.rules := by
  obtain ⟨-, hdistinct, -, rfl⟩ := Draft.build_passed h
  obtain ⟨-, hn⟩ := checkDistinct_ok hdistinct
  constructor
  · exact Roster.mem_of_mem_ofList
  · exact fun hr => (Roster.mem_ofList fun y hy he => List.inj_on_of_nodup_map hn hy hr he).2 hr

/-- **A grammar built from a declaration**: it passed every check, has the rules of the declaration,
and its parent and imports are the library's own entries. -/
structure Declaration.BuiltFrom (d : Declaration) (lib : Library) (g : Grammar) : Prop where
  built : Grammar.Built g
  name : g.name = d.name
  rules (r : Rule) : r ∈ g.rules ↔ r ∈ d.rules
  parent : d.parent.map lib.get? = g.parent.map some
  imported : ∀ n ∈ d.imports, ∃ i, lib.get? n = some i
  imports (i : Grammar) : i ∈ g.imports ↔ ∃ n ∈ d.imports, lib.get? n = some i

namespace Library

variable {lib lib' : Library} {decls : List Declaration} {d : Declaration} {g : Grammar}

theorem require_ok {name : String} (h : lib.require name = .ok g) : lib.get? name = some g := by
  unfold require at h
  split at h
  next g' hg => cases h; exact hg
  next => cases h

theorem mapM_require_ok : ∀ {names : List String} {gs : List Grammar},
    names.mapM lib.require = .ok gs → names.map lib.get? = gs.map some
  | [], gs, h => by
    rw [List.mapM_nil] at h
    cases h
    rfl
  | n :: ns, gs, h => by
    rw [List.mapM_cons] at h
    obtain ⟨g, hn, h⟩ := bind_eq_ok h
    obtain ⟨gs', hns, h⟩ := bind_eq_ok h
    cases h
    rw [List.map_cons, require_ok hn, mapM_require_ok hns]
    rfl

theorem mapM_require_some {name : Option String} {parent : Option Grammar}
    (h : name.mapM lib.require = .ok parent) : name.map lib.get? = parent.map some := by
  cases name with
  | none => cases h; rfl
  | some n =>
    have h : (some <$> lib.require n : Except Cause (Option Grammar)) = .ok parent := h
    cases hn : lib.require n with
    | error c => rw [hn] at h; cases h
    | ok p =>
      rw [hn] at h
      cases h
      rw [Option.map_some, require_ok hn]
      rfl

/-- **Building** a declaration on a complete library. -/
theorem build_ok (hc : lib.Complete) (h : lib.build d = .ok g) : d.BuiltFrom lib g := by
  obtain ⟨parent, hp, h⟩ := bind_eq_ok h
  obtain ⟨imports, hi, hbuild⟩ := bind_eq_ok h
  have hparent := mapM_require_some hp
  have himports := mapM_require_ok hi
  have hentry {n : String} {i : Grammar} (hn : lib.get? n = some i) : Grammar.Built i :=
    hc.built i (Roster.mem_of_get? hn)
  -- an import of a name is the entry of that name, so none takes the place of another
  have hmem (i : Grammar) : i ∈ imports ↔ ∃ n ∈ d.imports, lib.get? n = some i := by
    have hsome : some i ∈ imports.map some ↔ i ∈ imports := by simp
    rw [← hsome, ← himports, List.mem_map]
  have hname {n : String} {i : Grammar} (hn : lib.get? n = some i) : i.name = n :=
    Roster.get?_key hn
  have hsame : ∀ i ∈ imports, ∀ j ∈ imports, j.name = i.name → j = i := by
    intro i hi j hj he
    obtain ⟨n, -, hn⟩ := (hmem i).1 hi
    obtain ⟨m, -, hm⟩ := (hmem j).1 hj
    obtain rfl : m = n := (hname hm).symm.trans (he.trans (hname hn))
    rw [hn] at hm
    cases hm
    rfl
  have hfreeze : g = Draft.freeze _ := (Draft.build_eq_ok hbuild).1
  refine ⟨.build (fun p hp' => ?_) (fun i hi' => ?_) hbuild, ?_, fun r => ?_, ?_,
    fun n hn => ?_, fun i => ?_⟩
  · rw [show parent = some p from hp'] at hparent
    cases hd : d.parent with
    | none => rw [hd] at hparent; cases hparent
    | some n =>
      rw [hd] at hparent
      exact hentry (Option.some.inj hparent)
  · obtain ⟨n, -, hn⟩ := (hmem i).1 hi'
    exact hentry hn
  · rw [hfreeze]; rfl
  · exact Draft.mem_rules_of_build hbuild r
  · rw [hfreeze]; exact hparent
  · have hin : lib.get? n ∈ imports.map some := by
      rw [← himports]
      exact List.mem_map_of_mem hn
    obtain ⟨i, -, hi'⟩ := List.mem_map.1 hin
    exact ⟨i, hi'.symm⟩
  · rw [← hmem i, hfreeze]
    exact ⟨Roster.mem_of_mem_ofList, fun hin => (Roster.mem_ofList (hsame i hin)).2 hin⟩

/-- What was built from a declaration counts as such while the library grows. -/
theorem Extends.builtFrom (h : lib.Extends lib') (hb : d.BuiltFrom lib g) : d.BuiltFrom lib' g where
  built := hb.built
  name := hb.name
  rules := hb.rules
  parent := by
    rw [← hb.parent]
    cases hd : d.parent with
    | none => rfl
    | some n =>
      have hp := hb.parent
      rw [hd] at hp
      cases hg : g.parent with
      | none => rw [hg] at hp; cases hp
      | some p =>
        rw [hg] at hp
        have hn : lib.get? n = some p := Option.some.inj hp
        rw [Option.map_some, Option.map_some, hn, h.entry n p hn]
  imported n hn := by
    obtain ⟨i, hi⟩ := hb.imported n hn
    exact ⟨i, h.entry n i hi⟩
  imports i := by
    rw [hb.imports i]
    constructor
    · rintro ⟨n, hn, hi⟩
      exact ⟨n, hn, h.entry n i hi⟩
    · rintro ⟨n, hn, hi⟩
      obtain ⟨j, hj⟩ := hb.imported n hn
      rw [h.entry n j hj] at hi
      cases hi
      exact ⟨n, hn, hj⟩

/-- **The end of a batch** whose declarations before `after` were built as `gs`: the old entries and
exactly these grammars are there, each on the library's own entries. If a declaration is left, the
first of them could not be built, and the batch failed for that reason. -/
structure Batched (lib : Library) (before after : List Declaration) (gs : List Grammar)
    (lib' : Library) (answer : Except Error (List Grammar)) : Prop where
  grammars : List.Forall₂ (fun d g => d.BuiltFrom lib' g) before gs
  entries (name : String) (g : Grammar) :
    lib'.get? name = some g ↔ lib.get? name = some g ∨ (g ∈ gs ∧ g.name = name)
  answer : match after with
    | [] => answer = .ok gs
    | d :: _ => ∃ c : Cause, lib'.build d = .error c ∧ answer = .error c

theorem has_add (lib : Library) (g : Grammar) (name : String) :
    (lib.add g).has name = (decide (g.name = name) || lib.has name) :=
  Roster.has_insert g name lib.grammars

/-- The declarations of the given names, in this order. -/
def queue (decls : List Declaration) (order : List String) : List Declaration :=
  order.filterMap fun name => Roster.get? Declaration.name name decls

theorem queue_cons {name : String} {rest : List String} (h : Declares decls name d) :
    queue decls (name :: rest) = d :: queue decls rest :=
  List.filterMap_cons_some (f := fun name => Roster.get? Declaration.name name decls) h

/-- A grammar under a free name is all that is added. -/
theorem get?_add_eq_some (hfree : lib.has g.name = false) {x : Grammar} :
    (lib.add g).get? name = some x ↔ lib.get? name = some x ∨ (x = g ∧ x.name = name) := by
  rw [get?_add]
  by_cases hn : g.name = name
  · subst hn
    have hnone : lib.get? g.name = none :=
      Option.isNone_iff_eq_none.1 (Option.isSome_eq_false_iff.1 hfree)
    rw [if_pos rfl, hnone]
    constructor
    · rintro ⟨⟩
      exact .inr ⟨rfl, rfl⟩
    · rintro (h | ⟨rfl, -⟩)
      · cases h
      · rfl
  · rw [if_neg hn]
    refine (or_iff_left ?_).symm
    rintro ⟨rfl, hx⟩
    exact hn hx

namespace Batched

variable {before after : List Declaration} {gs : List Grammar}
  {answer : Except Error (List Grammar)}

/-- Nothing is left to build. -/
theorem nil : lib.Batched [] [] [] lib (.ok []) where
  grammars := .nil
  entries name g := by simp
  answer := rfl

/-- The first declaration cannot be built. -/
theorem failed {c : Cause} (hb : lib.build d = .error c) :
    lib.Batched [] (d :: after) [] lib (.error c) where
  grammars := .nil
  entries name g := by simp
  answer := ⟨c, hb, rfl⟩

/-- The first declaration is built, and the batch goes on from there. -/
theorem cons (hfree : lib.has g.name = false) (hfrom : d.BuiltFrom lib' g)
    (h : (lib.add g).Batched before after gs lib' answer) :
    lib.Batched (d :: before) after (g :: gs) lib' (answer.map fun gs => g :: gs) where
  grammars := .cons hfrom h.grammars
  entries name x := by
    rw [h.entries, get?_add_eq_some hfree, List.mem_cons, or_and_right, or_assoc]
  answer := by
    cases after with
    | nil => rw [show answer = .ok gs from h.answer]; rfl
    | cons d' after =>
      obtain ⟨c, hc, ha⟩ := h.answer
      exact ⟨c, hc, by rw [ha]; rfl⟩

end Batched

/-- **Building in order** goes on as long as declarations can be built. -/
theorem buildInOrder_eq {order : List String} {built : List Grammar}
    {answer : Except Error (List Grammar)} (hc : lib.Complete) (hn : order.Nodup)
    (hnew : ∀ name ∈ order, lib.has name = false)
    (h : buildInOrder decls order built lib = (lib', answer)) :
    (lib'.Complete ∧ lib.Extends lib') ∧ ∃ before after gs r, queue decls order = before ++ after ∧
      lib.Batched before after gs lib' r ∧ answer = r.map fun gs => built.reverse ++ gs := by
  induction order generalizing built lib with
  | nil =>
    cases h
    refine ⟨⟨hc, .refl _⟩, [], [], [], .ok [], rfl, .nil, ?_⟩
    simp [Except.map]
  | cons name rest ih =>
    obtain ⟨hname, hrest⟩ := List.nodup_cons.1 hn
    unfold buildInOrder at h
    cases hd : Roster.get? Declaration.name name decls with
    | none =>
      simp only [hd] at h
      have hskip : queue decls (name :: rest) = queue decls rest := by simp [queue, hd]
      rw [hskip]
      exact ih hc hrest (fun n hn => hnew n (.tail _ hn)) h
    | some d =>
      simp only [hd] at h
      rw [queue_cons hd]
      cases hb : lib.build d with
      | error c =>
        simp only [hb] at h
        cases h
        exact ⟨⟨hc, .refl _⟩, [], d :: queue decls rest, [], .error c, rfl, .failed hb, rfl⟩
      | ok g =>
        simp only [hb] at h
        have hfrom := build_ok hc hb
        have hg : g.name = name := hfrom.name.trans (Roster.get?_key hd)
        have hfree : lib.has g.name = false := hg ▸ hnew name (.head _)
        have hnew' : ∀ n ∈ rest, (lib.add g).has n = false := by
          intro n hn
          have hne : g.name ≠ n := fun he => hname (hg ▸ he ▸ hn)
          rw [has_add, hnew n (.tail _ hn)]
          simp [hne]
        obtain ⟨⟨hc', hext⟩, before, after, gs, r, hq, hbatch, rfl⟩ :=
          ih (hc.add hfrom.built) hrest hnew' h
        have hgrown : lib.Extends lib' := (Extends.add hfree).trans hext
        refine ⟨⟨hc', hgrown⟩, d :: before, after, g :: gs, _, by rw [hq]; rfl,
          hbatch.cons hfree (hgrown.builtFrom hfrom), ?_⟩
        cases r with
        | error e => rfl
        | ok gs' => simp [Except.map]

/-! ### Batches of declarations -/

/-- Declarations whose names are distinct, and none of which is taken. -/
structure Fresh (lib : Library) (decls : List Declaration) : Prop where
  distinct : (decls.map Declaration.name).Nodup
  new : ∀ d ∈ decls, lib.has d.name = false

/-- The declarations before `d` are fresh, and its name is taken, by one of them or in the
library. -/
def Taken (lib : Library) (decls : List Declaration) (d : Declaration) : Prop :=
  ∃ before after, decls = before ++ d :: after ∧ lib.Fresh before ∧
    (lib.has d.name = true ∨ d.name ∈ before.map Declaration.name)

theorem Fresh.eq_of_name (h : lib.Fresh decls) (hd : d ∈ decls) {e : Declaration} (he : e ∈ decls)
    (hn : e.name = d.name) : e = d :=
  List.inj_on_of_nodup_map h.distinct he hd hn

theorem Fresh.mem_roster (h : lib.Fresh decls) :
    d ∈ Roster.ofList Declaration.name decls ↔ d ∈ decls :=
  ⟨Roster.mem_of_mem_ofList, fun hd => (Roster.mem_ofList fun _ he hn => h.eq_of_name hd he hn).2 hd⟩

theorem Fresh.get?_roster (h : lib.Fresh decls) (hd : d ∈ decls) :
    Roster.get? Declaration.name d.name (Roster.ofList Declaration.name decls) = some d :=
  Roster.get?_ofList (fun _ he hn => h.eq_of_name hd he hn) hd

/-- A name is on the roster of declarations that bear it. -/
theorem has_ofList (decls : List Declaration) (name : String) :
    Roster.has Declaration.name name (Roster.ofList Declaration.name decls) = true ↔
      name ∈ decls.map Declaration.name := by
  induction decls using List.reverseRecOn with
  | nil => simp [Roster.ofList, Roster.has, Roster.get?]
  | append_singleton decls d ih =>
    rw [Roster.ofList_snoc, Roster.has_insert, Bool.or_eq_true, decide_eq_true_eq, ih, or_comm,
      List.map_append, List.mem_append, List.map_singleton, List.mem_singleton, eq_comm]

theorem pending_snoc (lib : Library) (decls : List Declaration) (d : Declaration) :
    lib.pending (decls ++ [d]) = lib.pending decls >>= fun roster =>
      if lib.has d.name || Roster.has Declaration.name d.name roster then
        .error (.duplicateGrammar d.name)
      else .ok (Roster.insert Declaration.name d roster) := by
  unfold pending
  rw [List.foldlM_append]
  congr 1
  funext roster
  exact bind_pure _

/-- **The declarations to build** are all of them, unless one has a name that is taken. -/
theorem pending_eq (lib : Library) (decls : List Declaration) :
    (lib.Fresh decls ∧ lib.pending decls = .ok (Roster.ofList Declaration.name decls)) ∨
      ∃ d, lib.Taken decls d ∧ lib.pending decls = .error (.duplicateGrammar d.name) := by
  induction decls using List.reverseRecOn with
  | nil => exact .inl ⟨⟨List.nodup_nil, by simp⟩, rfl⟩
  | append_singleton decls d ih =>
    rw [pending_snoc]
    rcases ih with ⟨hf, hp⟩ | ⟨e, ⟨before, after, rfl, hf, he⟩, hp⟩
    · have hstep : (lib.pending decls >>= fun roster =>
          if lib.has d.name || Roster.has Declaration.name d.name roster then
            .error (.duplicateGrammar d.name)
          else .ok (Roster.insert Declaration.name d roster)) =
          if lib.has d.name = true ∨ d.name ∈ decls.map Declaration.name then
            .error (.duplicateGrammar d.name)
          else .ok (Roster.ofList Declaration.name (decls ++ [d])) := by
        rw [hp, Roster.ofList_snoc]
        simp only [← has_ofList, ← Bool.or_eq_true]
        rfl
      rw [hstep]
      split
      next hd => exact .inr ⟨d, ⟨decls, [], rfl, hf, hd⟩, rfl⟩
      next hd =>
        refine .inl ⟨⟨?_, fun e he => ?_⟩, rfl⟩
        · rw [List.map_append, List.map_singleton]
          refine List.nodup_append.2 ⟨hf.distinct, List.nodup_singleton _, fun a ha b hb hab => ?_⟩
          exact hd (.inr (by rwa [← List.mem_singleton.1 hb, ← hab]))
        · rcases List.mem_append.1 he with he | he
          · exact hf.new e he
          · rw [List.mem_singleton.1 he]
            exact Bool.eq_false_iff.2 fun ht => hd (.inl ht)
    · refine .inr ⟨e, ⟨before, after ++ [d], by simp, hf, he⟩, ?_⟩
      rw [hp]
      rfl

/-- A declaration whose name is taken keeps a batch from being fresh. -/
theorem Taken.not_fresh (h : lib.Taken decls d) : ¬ lib.Fresh decls := by
  obtain ⟨before, after, rfl, -, hd | hd⟩ := h
  · intro hf
    rw [hf.new d (by simp)] at hd
    cases hd
  · intro hf
    have hn := hf.distinct
    rw [List.map_append, List.map_cons] at hn
    exact (List.nodup_append.1 hn).2.2 _ hd _ (.head _) rfl

/-! ### Declarations in order -/

/-- Each declaration comes after those of its batch that it needs. -/
def InOrder (decls : List Declaration) : Prop :=
  ∀ before d after, decls = before ++ d :: after →
    ∀ e ∈ decls, e.name ∈ d.dependencies → e ∈ before

theorem queue_names : ∀ {order : List String}, (∀ n ∈ order, ∃ d, Declares decls n d) →
    (queue decls order).map Declaration.name = order
  | [], _ => rfl
  | name :: rest, h => by
    obtain ⟨d, hd⟩ := h name (.head _)
    have hrest := queue_names fun n hn => h n (.tail _ hn)
    rw [queue_cons hd, List.map_cons, Roster.get?_key hd, hrest]

/-- **The queue of a batch** holds its declarations, each after those that it needs. -/
theorem Fresh.queue (h : lib.Fresh decls) {order : List String}
    (ho : dependencyOrder (Roster.ofList Declaration.name decls) = .ok order) :
    (queue (Roster.ofList Declaration.name decls) order).Perm decls ∧
      InOrder (queue (Roster.ofList Declaration.name decls) order) := by
  obtain ⟨hs, hall⟩ := dependencyOrder_ok ho
  have hnames := queue_names hs.declared
  have hmem (d : Declaration) : d ∈ Library.queue (Roster.ofList Declaration.name decls) order ↔
      d ∈ decls := by
    rw [Library.queue, List.mem_filterMap, ← h.mem_roster]
    constructor
    · rintro ⟨n, -, hn⟩
      exact Roster.mem_of_get? hn
    · exact fun hd => ⟨d.name, hall d hd, h.get?_roster (h.mem_roster.1 hd)⟩
  generalize Library.queue (Roster.ofList Declaration.name decls) order = sorted at hnames hmem ⊢
  have hperm : sorted.Perm decls :=
    (List.perm_ext_iff_of_nodup (.of_map Declaration.name (hnames ▸ hs.nodup))
      (.of_map Declaration.name h.distinct)).2 hmem
  refine ⟨hperm, fun before d after he e hin hdep => ?_⟩
  subst he
  have hdecl {x : Declaration} (hx : x ∈ before ++ d :: after) :=
    h.get?_roster ((hmem x).1 hx)
  -- what is needed has a name before, and no other declaration of the queue bears that name
  have hbefore : e.name ∈ before.map Declaration.name := by
    rw [List.map_append, List.map_cons] at hnames
    exact hs.settled _ d.name _ hnames.symm d (hdecl (by simp)) e.name hdep e (hdecl hin)
  obtain ⟨x, hx, hxe⟩ := List.mem_map.1 hbefore
  have hsame := h.eq_of_name ((hmem e).1 hin) ((hmem x).1 (List.mem_append_left _ hx)) hxe
  rwa [← hsame]

/-! ### Histories of requests -/

/-- What is loaded at once: one description, which errors call `origin`, several, or declarations
that were read before. -/
inductive Batch
  | description (origin source : String)
  | descriptions (sources : List String)
  | declarations (decls : List Declaration)

/-- What a library can be asked to do. -/
inductive Request
  | insert (g : Grammar)
  | load (batch : Batch)

/-- The declarations of a batch. -/
def read (lib : Library) : Batch → Except Error (List Declaration)
  | .description origin source => (lib.parse origin source).map fun d => [d]
  | .descriptions sources => lib.parseAll 1 sources
  | .declarations decls => .ok decls

/-- Does what is asked, and answers with the grammars that were built for it. -/
def perform (lib : Library) : Request → Library × Except Error (List Grammar)
  | .insert g =>
    match lib.insert g with
    | .ok lib' => (lib', .ok [])
    | .error cause => (lib, .error cause)
  | .load (.description origin source) =>
    let (lib', answer) := lib.load origin source
    (lib', answer.map fun g => [g])
  | .load (.descriptions sources) => lib.loadAll sources
  | .load (.declarations decls) => lib.loadDecls decls

/-- The library after a history of requests, whatever became of each. -/
def after (lib : Library) (past : List Request) : Library :=
  past.foldl (fun lib request => (lib.perform request).1) lib

/-- **What becomes of declarations** that are to be built: all of them are refused if a name is taken
or they need one another in a circle; else they are built one after another. -/
structure Loaded (lib : Library) (decls : List Declaration) (lib' : Library)
    (answer : Except Error (List Grammar)) : Prop where
  taken : ¬ lib.Fresh decls →
    lib' = lib ∧ ∃ d, lib.Taken decls d ∧ answer = .error (Cause.duplicateGrammar d.name)
  cyclic : lib.Fresh decls → ∀ c,
    dependencyOrder (Roster.ofList Declaration.name decls) = .error c →
      lib' = lib ∧ answer = .error c ∧ ∃ chain, c = .cyclicParent chain
  built : lib.Fresh decls → ∀ order,
    dependencyOrder (Roster.ofList Declaration.name decls) = .ok order →
      ∃ before after gs, (before ++ after).Perm decls ∧ InOrder (before ++ after) ∧
        Library.queue (Roster.ofList Declaration.name decls) order = before ++ after ∧
        lib.Batched before after gs lib' answer

/-- **Declarations are loaded** as said, and leave a complete library. -/
theorem loadDecls_loaded (hc : lib.Complete) {answer : Except Error (List Grammar)}
    (h : lib.loadDecls decls = (lib', answer)) :
    (lib'.Complete ∧ lib.Extends lib') ∧ lib.Loaded decls lib' answer := by
  rcases lib.pending_eq decls with ⟨hf, hp⟩ | ⟨d, hd, hp⟩
  · cases ho : dependencyOrder (Roster.ofList Declaration.name decls) with
    | error c =>
      simp only [loadDecls, hp, ho, bind, Except.bind] at h
      cases h
      refine ⟨⟨hc, .refl _⟩, fun hn => absurd hf hn, fun _ c' hc' => ?_, fun _ order ho' => ?_⟩
      · rw [ho] at hc'
        cases hc'
        exact ⟨rfl, rfl, dependencyOrder_error ho⟩
      · rw [ho] at ho'
        cases ho'
    | ok order =>
      simp only [loadDecls, hp, ho, bind, Except.bind, pure, Except.pure] at h
      obtain ⟨hs, -⟩ := dependencyOrder_ok ho
      have hnew : ∀ name ∈ order, lib.has name = false := by
        intro name hn
        obtain ⟨d, hd⟩ := hs.declared name hn
        rw [← Roster.get?_key hd]
        exact hf.new d (hf.mem_roster.1 (Roster.mem_of_get? hd))
      obtain ⟨hgrown, before, after, gs, r, hq, hb, hr⟩ := buildInOrder_eq hc hs.nodup hnew h
      refine ⟨hgrown, fun hn => absurd hf hn, fun _ c hc' => ?_, fun _ order' ho' => ?_⟩
      · rw [ho] at hc'; cases hc'
      · rw [ho] at ho'
        cases ho'
        have hanswer : answer = r := by cases r <;> exact hr
        have hqueue := hf.queue ho
        rw [hq] at hqueue
        exact ⟨before, after, gs, hqueue.1, hqueue.2, hq, hanswer ▸ hb⟩
  · simp only [loadDecls, hp, bind, Except.bind] at h
    cases h
    exact ⟨⟨hc, .refl _⟩, fun _ => ⟨rfl, d, hd, rfl⟩, fun hf => absurd hf hd.not_fresh,
      fun hf => absurd hf hd.not_fresh⟩

/-- A batch that does not fail has all its declarations built. -/
theorem Loaded.all {gs : List Grammar} (h : lib.Loaded decls lib' (.ok gs)) :
    ∃ sorted, sorted.Perm decls ∧ InOrder sorted ∧
      List.Forall₂ (fun d g => d.BuiltFrom lib' g) sorted gs := by
  by_cases hf : lib.Fresh decls
  · cases ho : dependencyOrder (Roster.ofList Declaration.name decls) with
    | error c =>
      obtain ⟨-, he, -⟩ := h.cyclic hf c ho
      cases he
    | ok order =>
      obtain ⟨before, after, gs', hperm, horder, -, hb⟩ := h.built hf order ho
      cases after with
      | nil =>
        cases hb.answer
        rw [List.append_nil] at hperm horder
        exact ⟨before, hperm, horder, hb.grammars⟩
      | cons d rest =>
        obtain ⟨c, -, he⟩ := hb.answer
        cases he
  · obtain ⟨-, d, -, he⟩ := h.taken hf
    cases he

/-- Loading one description answers with the one grammar that was built. -/
theorem perform_load (hc : lib.Complete) {batch : Batch} (h : lib.read batch = .ok decls) :
    lib.perform (.load batch) = lib.loadDecls decls := by
  cases batch with
  | declarations => cases h; rfl
  | descriptions sources =>
    have h : lib.parseAll 1 sources = .ok decls := h
    simp only [perform, loadAll, h]
  | description origin source =>
    cases hd : lib.parse origin source with
    | error e => rw [read, hd] at h; cases h
    | ok d =>
      rw [read, hd] at h
      cases h
      rcases hl : lib.loadDecls [d] with ⟨lib', e | gs⟩
      · simp only [perform, load, hd, hl]
        rfl
      · obtain ⟨-, hloaded⟩ := loadDecls_loaded hc hl
        obtain ⟨sorted, hperm, -, hall⟩ := hloaded.all
        obtain rfl := hperm.eq_singleton
        obtain ⟨g, gs', -, hnil, rfl⟩ := List.forall₂_cons_left_iff.1 hall
        cases hnil
        simp only [perform, load, hd, hl]
        rfl

theorem perform_unread {batch : Batch} {e : Error} (h : lib.read batch = .error e) :
    lib.perform (.load batch) = (lib, .error e) := by
  cases batch with
  | declarations => cases h
  | descriptions sources =>
    have h : lib.parseAll 1 sources = .error e := h
    simp only [perform, loadAll, h]
  | description origin source =>
    cases hd : lib.parse origin source with
    | ok d => rw [read, hd] at h; cases h
    | error e' =>
      rw [read, hd] at h
      cases h
      simp only [perform, load, hd]
      rfl

/-- **What becomes of a request.** A grammar is added unless its name is taken; a batch that cannot be
read changes nothing, and one that can is loaded as its declarations are. -/
inductive Outcome (lib : Library) : Request → Library → Except Error (List Grammar) → Prop
  | refused {g : Grammar} (h : lib.has g.name = true) :
    Outcome lib (.insert g) lib (.error (Cause.duplicateGrammar g.name))
  | inserted {g : Grammar} (h : lib.has g.name = false) :
    Outcome lib (.insert g) (lib.add g) (.ok [])
  | unread {batch : Batch} {e : Error} (h : lib.read batch = .error e) :
    Outcome lib (.load batch) lib (.error e)
  | loaded {batch : Batch} {decls : List Declaration} {lib' : Library}
    {answer : Except Error (List Grammar)} (h : lib.read batch = .ok decls)
    (hl : lib.Loaded decls lib' answer) : Outcome lib (.load batch) lib' answer

/-- A request keeps a library complete and all that is in it. -/
theorem perform_ok (hc : lib.Complete) {request : Request}
    (hb : ∀ g, request = .insert g → Grammar.Built g) :
    ((lib.perform request).1.Complete ∧ lib.Extends (lib.perform request).1) ∧
      lib.Outcome request (lib.perform request).1 (lib.perform request).2 := by
  cases request with
  | insert g =>
    cases hg : lib.has g.name with
    | true =>
      simp only [perform, insert, hg, if_true]
      exact ⟨⟨hc, .refl _⟩, .refused hg⟩
    | false =>
      simp only [perform, insert, hg, Bool.false_eq_true, if_false]
      exact ⟨⟨hc.add (hb g rfl), .add hg⟩, .inserted hg⟩
  | load batch =>
    cases hr : lib.read batch with
    | error e =>
      rw [perform_unread hr]
      exact ⟨⟨hc, .refl _⟩, .unread hr⟩
    | ok decls =>
      rw [perform_load hc hr]
      obtain ⟨hgrown, hloaded⟩ := loadDecls_loaded hc (Prod.eta (lib.loadDecls decls)).symm
      exact ⟨hgrown, .loaded hr hloaded⟩

/-- A history of requests leaves a complete library. -/
theorem Complete.after (hc : lib.Complete) {past : List Request}
    (hb : ∀ g, .insert g ∈ past → Grammar.Built g) : (lib.after past).Complete := by
  induction past generalizing lib with
  | nil => exact hc
  | cons request past ih =>
    obtain ⟨⟨hc', -⟩, -⟩ := perform_ok hc fun g hg => hb g (hg ▸ .head _)
    exact ih hc' fun g hg => hb g (.tail _ hg)

/-- **A request that only adds complete grammars.** Afterwards every entry is the one of its own name,
no ancestry has a name twice, and all that was there is there. -/
structure OnlyAdds (lib : Library) (request : Request) : Prop where
  named : ∀ g ∈ (lib.perform request).1.grammars, (lib.perform request).1.get? g.name = some g
  found : ∀ name g, (lib.perform request).1.get? name = some g → g.name = name
  ancestry : ∀ g ∈ (lib.perform request).1.grammars, g.ancestry.Nodup
  kept : lib.Extends (lib.perform request).1
  outcome : lib.Outcome request (lib.perform request).1 (lib.perform request).2

/-- **Loading only ever adds complete grammars**, whatever was asked of the library before and
whatever became of it. -/
theorem history_onlyAdds (reader : Grammar) (engine : Engine) (past : List Request)
    (request : Request) (hb : ∀ g, .insert g ∈ request :: past → Grammar.Built g) :
    (({ reader, engine } : Library).after past).OnlyAdds request := by
  have hc := (Complete.empty reader engine).after fun g hg => hb g (.tail _ hg)
  obtain ⟨⟨hc', hext⟩, houtcome⟩ := perform_ok hc fun g hg => hb g (hg ▸ .head _)
  exact {
    named := fun g hg => hc'.ordered.get?_self hg
    found := fun name g hg => Roster.get?_key hg
    ancestry := fun g hg => (hc'.built g hg).nodup_ancestry
    kept := hext
    outcome := houtcome }

/-- A grammar of bits. -/
def bits : Draft :=
  { name := "Bits", rules := [{ name := "bit", body := .range '0' '1' }] }

/-- Declarations of an heir of `Bits`, and of one of this heir that applies a rule which is
nowhere. -/
def heirs : List Declaration :=
  [{ name := "Broken", parent := some "Heir", rules := [{ name := "start", body := .app "nowhere" }] },
    { name := "Heir", parent := some "Bits", rules := [{ name := "bits", body := .many (.app "bit") }] }]

/-- The heir comes first and stays, though the other declaration cannot be built. -/
theorem history_onlyAdds_heirs :
    (∀ g, Request.insert g ∈ [.load (.declarations heirs), .insert bits.freeze] →
      Grammar.Built g) ∧
      (({} : Library).after [.insert bits.freeze]).OnlyAdds (.load (.declarations heirs)) ∧
      (({} : Library).after [.insert bits.freeze, .load (.declarations heirs)]).names =
        ["Bits", "Heir"] := by
  have hbits : Grammar.Built bits.freeze :=
    .freeze (fun p hp => by cases hp) (fun i hi => by cases hi) (by decide +kernel)
  have hb : ∀ g, Request.insert g ∈ [.load (.declarations heirs), .insert bits.freeze] →
      Grammar.Built g := by
    intro g hg
    simp only [List.mem_cons, reduceCtorEq, Request.insert.injEq, List.not_mem_nil, or_false,
      false_or] at hg
    exact hg ▸ hbits
  exact ⟨hb, history_onlyAdds Notation.grammar {} _ _ hb, by decide +kernel⟩

end Library

end Packrat
