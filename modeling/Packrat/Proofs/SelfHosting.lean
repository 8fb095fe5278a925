import Packrat.Notation.Source
import Packrat.Proofs.Scanning
import Packrat.Proofs.Stamps

/-!
# The notation reads itself

The notation for grammars is described twice: by rules put together from expressions, and by a text
in the notation itself. The text, read with the rules, declares these very rules, so the grammar
that it is loaded as differs from the one it was read with in its stamp only. Nothing that is read
depends on a stamp; so it makes no difference which of the two grammars a library reads with.

* `Notation.parse_source`: the text declares the rules.
* `Notation.load_source`: it is loaded as the grammar under another stamp.
* `Library.self_hosting`: libraries that read with either grammar do the same.
-/

namespace Packrat

/-- Loading a description that declares what can be built. -/
theorem Library.load_eq {lib : Library} {origin source : String} {d : Declaration} {g : Grammar}
    (hp : lib.parse origin source = .ok d) (hl : (lib.loadDecls [d]).2 = .ok [g]) :
    (lib.load origin source).2 = .ok g := by
  unfold load
  rw [hp]
  dsimp only
  generalize lib.loadDecls [d] = loaded at hl ⊢
  obtain ⟨lib', r⟩ := loaded
  cases hl
  rfl

namespace Notation

/-! ### Reading the text -/

/-- The characters of some lines, with a line break after each. -/
inductive Spelled : List String → List Char → Prop
  | nil : Spelled [] []
  | cons {line : List Char} {lines : List String} {cs : List Char} (h : Spelled lines cs) :
    Spelled (String.ofList line :: lines) (line ++ '\n' :: cs)

theorem Spelled.toList_join {lines : List String} {cs : List Char} (h : Spelled lines cs) :
    (String.join (lines.map fun line => line ++ "\n")).toList = cs := by
  induction h with
  | nil => rfl
  | @cons line lines cs _ ih =>
    rw [List.map_cons, String.join_cons, String.toList_append, ih, String.toList_append,
      String.toList_ofList, List.append_assoc]
    rfl

/-- What the text declares. -/
def declaration : Declaration := { name := "Meta", rules := draft.rules }

/-- Whether a text, scanned to its end, is read as the declaration, and without a NaN. -/
def declares (cs : List Char) : Bool :=
  match Scan.scan .standard grammar 2000 entry [] 0 cs with
  | some (some (tree, _, [])) =>
    decide ((Declaration.ofTree tree).toOption = some declaration) && tree.equals tree
  | _ => false

/-- The scan of the text. Its characters are taken from the lines one by one, so that the scan has
them at hand. -/
theorem declares_sourceLines : ∃ cs, Spelled sourceLines cs ∧ declares cs = true := by
  refine ⟨_, by unfold sourceLines; repeat (first | exact .nil | apply Spelled.cons), ?_⟩
  decide +kernel

/-- **The text declares the rules of the notation**, read with these rules. -/
theorem parse_source (origin : String) : ({} : Library).parse origin source = .ok declaration := by
  obtain ⟨cs, hspelled, h⟩ := declares_sourceLines
  have hcs : source.toList = cs := hspelled.toList_join
  unfold declares at h
  split at h
  next tree stop hscan =>
    rw [Bool.and_eq_true] at h
    have hmatch : ({} : Engine).matchAll grammar entry (.ofString source) = .ok tree :=
      Engine.matchAll_of_scan {} Registry.standard_blind (by rw [hcs]; exact hscan) h.2
    have htree : Declaration.ofTree tree = .ok declaration := by
      cases ht : Declaration.ofTree tree with
      | error c => rw [ht] at h; cases of_decide_eq_true h.1
      | ok d => rw [ht] at h; cases of_decide_eq_true h.1; rfl
    unfold Library.parse
    rw [hmatch]
    show (Declaration.ofTree tree).mapError _ = _
    rw [htree]
    rfl
  next => cases h

/-- The grammar that the text is loaded as. -/
def loaded : Grammar := grammar.restamped 1

/-- The declaration is built as the grammar under another stamp. -/
theorem build_declaration : (({} : Library).build declaration).toOption = some loaded := by
  decide +kernel

/-- **The text is loaded as the grammar that it was read with**, under another stamp. -/
theorem load_source (origin : String) : (({} : Library).load origin source).2 = .ok loaded := by
  have hbuild : ({} : Library).build declaration = .ok loaded := by
    have h := build_declaration
    cases hb : ({} : Library).build declaration with
    | error c => rw [hb] at h; cases h
    | ok g => rw [hb] at h; cases h; rfl
  have hload : (({} : Library).loadDecls [declaration]).2 = .ok [loaded] := by
    have horder : Library.dependencyOrder [declaration] = .ok ["Meta"] := rfl
    have hdecl : Roster.get? Declaration.name "Meta" [declaration] = some declaration := rfl
    show (Library.buildInOrder [declaration] ["Meta"] [] {}).2 = _
    simp only [Library.buildInOrder, hdecl, hbuild]
    rfl
  exact Library.load_eq (parse_source origin) hload

end Notation

namespace Library

/-! ### Reading with either grammar -/

/-- A description is read alike under any stamp of a grammar that rests on no other. -/
theorem parse_restamped {g : Grammar} (h : g.Alone) (stamp : Nat) (engine : Engine)
    (origin source : String) :
    ({ reader := g.restamped stamp, engine } : Library).parse origin source =
      ({ reader := g, engine } : Library).parse origin source := by
  unfold parse Engine.matchAll
  rw [engine.run_restamped h stamp]

/-- **The notation may be read with the grammar that it describes itself as.** The description of
the notation can be loaded, and a library that reads with the grammar it is loaded as reads every
text as any library does, to the same declaration or the same error. So under the same requests the
two stay the same, up to the stamps of their grammars, and give the same answers. -/
theorem self_hosting (origin : String) :
    ∃ M, (({} : Library).load origin Notation.source).2 = .ok M ∧
      (∀ (engine : Engine) (origin source : String),
        ({ reader := M, engine } : Library).parse origin source =
          ({ engine } : Library).parse origin source) ∧
      ∀ (engine : Engine) (past past' : List Request) (request request' : Request),
        List.Forall₂ Request.Alike past past' → request.Alike request' →
          (({ reader := M, engine } : Library).after past).Alike
              (({ engine } : Library).after past') ∧
            bareAnswer ((({ reader := M, engine } : Library).after past).perform request).2 =
              bareAnswer ((({ engine } : Library).after past').perform request').2 := by
  have hparse := parse_restamped Notation.grammar_alone 1
  refine ⟨Notation.loaded, Notation.load_source origin, hparse, ?_⟩
  intro engine past past' request request' hpast hrequest
  have hstart : ({ reader := Notation.loaded, engine } : Library).Alike { engine } :=
    ⟨hparse engine, rfl⟩
  have hlater := hstart.after hpast
  exact ⟨hlater, (hlater.perform hrequest).2⟩

end Library

end Packrat
